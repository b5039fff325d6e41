import Tenure.Proofs.Tracking

/-!
# Promoted immutable objects never change

An object of an immutable type that has left the nursery can no longer be written, by whatever
reference a program names it. So until it is redirected itself, it looks the same in all sessions to
come, wherever it is moved, where what it refers to may be moved and redirected. Main statement:
`Reaches.frozen_permanent`.
-/

namespace Tenure

open Mutator (Instr)

namespace Heap

/-- The object at `d` is of an immutable type and has left the nursery. -/
structure Frozen (h : Heap) (l : Census) (d : Nat) (type : TypeInfo) : Prop where
  object : ∃ s f, h.Object l s f ∧ s.start = d ∧ ¬ f.IsBlock ∧ f.type = type
  immutable : type.isMutable = false
  outside : h.nursery.region.contains d = false

/-- No write to the object at `d` gets through, by whatever reference. -/
structure Locked (h : Heap) (l : Census) (d : Nat) (type : TypeInfo) : Prop where
  setPrim : ∀ a, h.Valid l a → h.memory.resolve a = d → ∀ i < type.prims, ∀ w,
    setPrim a i w h = .error (.fatal (.immutableWrite type.name)) h
  setPtr : ∀ a, h.Valid l a → h.memory.resolve a = d → ∀ i < type.ptrs, ∀ v,
    setPtr a i v h = .error (.fatal (.immutableWrite type.name)) h
  setTailWord : type.units = .words → ∀ a, h.Valid l a → h.memory.resolve a = d → ∀ i w,
    setTailWord a i w h = .error (.fatal (.immutableWrite type.name)) h
  setTailPtr : type.units = .refs → ∀ a, h.Valid l a → h.memory.resolve a = d → ∀ i v,
    setTailPtr a i v h = .error (.fatal (.immutableWrite type.name)) h

/-- The renaming `φ` tells where the objects of `h` are in `h'`. Without a collection they stay
where they are, and an object that is redirected goes by its target. -/
def Tracks (φ : Nat → Nat) (h : Heap) (l : Census) (h' : Heap) : Prop :=
  if h'.epochs = h.epochs then ∀ d, φ d = h'.memory.resolve d else Relocates φ h l h'

/-- The step to `h'` keeps the object at `d`: it is not redirected, and if there is a collection, it
is spared. -/
def Retains (h : Heap) (l : Census) (h' : Heap) (d : Nat) : Prop :=
  if h'.epochs = h.epochs then h'.memory.hop? d = none else Spared h l h' d

variable {h h' h₁ h₂ : Heap} {l l' l₁ : Census} {φ ψ : Nat → Nat} {s t : Span} {f g : Form}
  {type : TypeInfo} {a b d i n : Nat} {w : Word} {v : Option Nat} {instr : Instr}

/-! ### Writes -/

private theorem needWritable_eq {object : Nat} (hi : type.isMutable = false)
    (ho : h.nursery.region.contains object = false) :
    needWritable object type h = .error (.fatal (.immutableWrite type.name)) h := by
  simp only [needWritable, bind, EStateM.bind, ask, hi, ho, Bool.not_false, Bool.and_self, if_true]
  rfl

private theorem checked_eq {object : Nat} {c : Prop} [Decidable c] {e : Violation}
    {k : Unit → HeapM Unit} (hi : type.isMutable = false)
    (ho : h.nursery.region.contains object = false) (hc : ¬ c) :
    (if c then throw (.violation e) else needWritable object type >>= k : HeapM Unit) h =
      .error (.fatal (.immutableWrite type.name)) h := by
  rw [if_neg hc]
  simp only [bind, EStateM.bind, needWritable_eq hi ho]

private theorem Frozen.locked (hf : Frozen h l d type) : Locked h l d type := by
  obtain ⟨⟨s, f, hobj, rfl, hb, rfl⟩, hi, ho⟩ := hf
  have hdirect : ∀ {a} {k : Nat × TypeInfo → HeapM Unit}, h.memory.resolve a = s.start →
      (direct a >>= k) h = k (s.start, f.type) h := by
    intro a k hr
    have hn : h.Named l a s f := ⟨hobj, hb, hr⟩
    simp only [bind, EStateM.bind, direct_eq hn]
  refine ⟨fun a _ hr i hlt w ↦ ?_, fun a _ hr i hlt v ↦ ?_, fun hu a _ hr i w ↦ ?_,
    fun hu a _ hr i v ↦ ?_⟩
  · rw [Heap.setPrim, hdirect hr]
    exact checked_eq hi ho (Nat.not_le.mpr hlt)
  · rw [Heap.setPtr, hdirect hr]
    exact checked_eq hi ho (Nat.not_le.mpr hlt)
  · rw [Heap.setTailWord, hdirect hr]
    exact checked_eq hi ho (not_not.mpr hu)
  · rw [Heap.setTailPtr, hdirect hr]
    exact checked_eq hi ho (not_not.mpr hu)

/-! ### Steps -/

/-- The object is frozen where it is carried to. -/
theorem Frozen.carried (hf : Frozen h l d type) (ht : h'.table = h.table)
    (hc : Carried φ h h' l' d) : Frozen h' l' (φ d) type := by
  obtain ⟨⟨s, f, hobj, rfl, -, rfl⟩, hi, -⟩ := hf
  obtain ⟨t, g, hg, he, hgb⟩ := hc.object
  have htag : g.tag = f.tag := by
    rw [← Memory.tagBits_of_form? hg.form?, he, hc.tag, Memory.tagBits_of_form? hobj.form?]
  have htype : g.type = f.type := by
    have hgt := (Memory.form?_eq_some_iff.mp hg.form?).2
    rw [htag, ht, (Memory.form?_eq_some_iff.mp hobj.form?).2] at hgt
    exact (Option.some.inj hgt).symm
  exact ⟨⟨t, g, hg, he, hgb, htype⟩, hi, hc.outside⟩

/-- The order of the remembered set plays no part in what is frozen. -/
theorem Frozen.reordered (hf : Frozen h l d type) (ho : h.Reordered h') : Frozen h' l d type := by
  rw [ho.heap]
  exact ⟨hf.object, hf.immutable, hf.outside⟩

-- An object that stays where it is and refers to the same places, up to redirections.
private theorem carried_of_view {k : Nat → Nat} (hs : h.Sound l) (hf : h.Object l s f)
    (hb : ¬ f.IsBlock) (hf' : h'.Object l' s f) (ho : h'.nursery.region.contains s.start = false)
    (hv : h'.memory.view h'.table s.start = (h.memory.view h.table s.start).map (·.map k))
    (hk : ∀ e, h.Valid l e → h.memory.resolve e = e → h'.memory.resolve e = k e) :
    Carried h'.memory.resolve h h' l' s.start := by
  have hstart : h'.memory.resolve s.start = s.start := Memory.resolve_of_hop?_eq_none hf'.hop?
  refine ⟨⟨s, f, hf', hstart.symm, hb⟩, ?_, ?_, ?_⟩
  · rw [hstart, ho]
  · rw [hstart, Memory.tagBits_of_form? hf.form?, Memory.tagBits_of_form? hf'.form?]
  · rw [hstart, hv]
    refine Option.map_congr fun c hc ↦ Contents.map_congr fun e he ↦ ?_
    obtain ⟨t, g, hg, rfl, hgb⟩ := hs.wellFormed.direct_of_view hf hb hc he
    have hn : h.Named l t.start t g := ⟨hg, hgb, Memory.resolve_of_hop?_eq_none hg.hop?⟩
    exact (hk t.start hn.valid hn.resolve).symm

/-- What is frozen stays as it is in an edit that does not redirect it. -/
theorem Frozen.carried_of_edits (hs : h.Sound l) (hf : Frozen h l d type) (he : Edits h l h')
    (hh : h'.memory.hop? d = none) : Carried h'.memory.resolve h h' l d := by
  obtain ⟨⟨s, f, hobj, rfl, hb, rfl⟩, hi, ho⟩ := hf
  cases he with
  | rerooted hr =>
    refine carried_of_view (k := id) hs hobj hb (by rw [Object, hr.heap]; exact hobj)
      (by rw [hr.heap]; exact ho) ?_ fun e _ he ↦ ?_
    · rw [hr.heap, Contents.map_map_id]
    · rw [hr.heap]
      exact he
  | @stored t g part w v hst hw =>
    have hne : t ≠ s := by
      rintro rfl
      obtain rfl := hst.object.unique hobj
      rcases hw with hw | hw
      · rw [hi] at hw
        cases hw
      · rw [ho] at hw
        cases hw
    refine carried_of_view hs hobj hb ((hst.object_iff hs).mpr hobj) (by rw [hst.heap]; exact ho)
      (k := id) ?_ fun e hv he ↦ (hst.resolve hs hv).trans he
    rw [hst.view_of_ne hs hobj hb hne, Contents.map_map_id]
  | @redirected t u hr =>
    have hne : s ≠ t := by
      rintro rfl
      obtain ⟨k, hk, -⟩ := hr.object
      obtain ⟨g, hg, -⟩ := hr.target
      rw [hr.memory, Memory.hop?_redirect_self hs.wellFormed hk hg] at hh
      cases hh
    refine carried_of_view hs hobj hb ((hr.object_iff hs).mpr ⟨hobj, hne⟩)
      (by rw [hr.heap]; exact ho) (hr.view hs hobj hb hne) fun e hv he ↦ ?_
    rw [hr.resolve hs hv, he]

/-- A frozen object stays as it is when another object is placed. -/
theorem Frozen.carried_of_placed (hs : h.Sound l) (hf : Frozen h l d type) (hp : Placed h f a h') :
    Carried h'.memory.resolve h h' (l.place f h.settings.padding a) d := by
  obtain ⟨⟨s, g, hobj, rfl, hb, rfl⟩, hi, ho⟩ := hf
  refine carried_of_view (k := id) hs hobj hb ((hp.object_iff hs).mpr (.inl hobj))
    (by rw [hp.contains, ho]) ?_ fun e hv he ↦ ?_
  · rw [hp.view hs hobj hb, Contents.map_map_id]
  · rw [(hp.denotes hs hv.denotes).resolve, he, id]

/-- What a step of a run does to the objects. -/
structure Conserves (h : Heap) (l : Census) (h' : Heap) (l' : Census) : Prop where
  table : h'.table = h.table
  /-- Without a collection, what is frozen stays as it is unless it is redirected. -/
  still : h'.epochs = h.epochs → ∀ d type, Frozen h l d type → h'.memory.hop? d = none →
    Carried h'.memory.resolve h h' l' d
  /-- A collection carries along what it spares. -/
  moved : h'.epochs ≠ h.epochs → ∃ φ, Carries φ h l h' l'

private theorem Edits.conserves (hs : h.Sound l) (he : Edits h l h') : Conserves h l h' l where
  table := by
    cases he with
    | rerooted hr => rw [hr.heap]
    | stored hst _ => exact hst.table
    | redirected hr => exact hr.table
  still := fun _ _ _ hf hh ↦ hf.carried_of_edits hs he hh
  moved := fun hep ↦ absurd (by
    rw [Heap.epochs, Heap.epochs, (CountsNothing.edits he).statistics]) hep

private theorem Edits.moves (hs : h.Sound l) (he : Edits h l h') : Moves h l h' l := by
  cases he with
  | rerooted hr => exact (Moves.refl hs).rerooted hr
  | stored hst _ => exact hst.moves hs
  | redirected hr => exact hr.moves hs

private theorem Carries.conserves (hc : Carries φ h l h' l') (hlt : h.epochs < h'.epochs) :
    Conserves h l h' l' :=
  ⟨hc.table, fun he ↦ absurd he (Nat.ne_of_gt hlt), fun _ ↦ ⟨φ, hc⟩⟩

-- An allocation starts from the heap as it is, or from one to which what is spared was carried.
private theorem Supplied.exists_ready (hs : h.Sound l) (hroom : h.Headroom) (hsup : Supplied h h₁) :
    ∃ l₁, Ready h l h₁ l₁ ∧
      (h₁ = h ∧ l₁ = l ∨ h.epochs < h₁.epochs ∧ ∃ φ, Carries φ h l h₁ l₁) := by
  rcases hsup with rfl | he
  · exact ⟨l, .inl ⟨rfl, rfl⟩, .inl ⟨rfl, rfl⟩⟩
  · obtain ⟨φ, l₁, hc, hroom₁, hcar⟩ := exists_carries_of_collect hs hroom he
    exact ⟨l₁, .inr ⟨hc, hroom₁⟩, .inr ⟨hc.epochs, φ, hcar⟩⟩

private theorem Allocates.conserves (hs : h.Sound l) (hroom : h.Headroom) (ha : Allocates h l h') :
    ∃ l', Moves h l h' l' ∧ Conserves h l h' l' := by
  obtain ⟨a, n, h₁, h₂, hre, hsup, hp, rfl⟩ := ha
  have hs₀ := hre.sound hs
  have hcut : ∀ {l₂}, Moves h l h₂ l₂ → Moves h l (h₂.cutTo h.roots.size) l₂ := fun hm ↦
    hm.rerooted ⟨rfl, fun b hb ↦ hm.sound.roots b (by
      rw [Heap.cutTo, RootStack.toList_truncate] at hb
      exact List.mem_of_mem_take hb)⟩
  obtain ⟨l₁, hready, hc⟩ := hsup.exists_ready hs₀ (hre.headroom hs hroom)
  rcases hp with rfl | ⟨f, b, hp⟩
  · refine ⟨l₁, hcut (hre.moves (hready.moves hs₀)), ?_⟩
    rcases hc with ⟨rfl, rfl⟩ | ⟨hlt, φ, hc⟩
    · exact Edits.conserves hs (.rerooted ⟨rfl, fun b hb ↦ hre.valid b (by
        rw [Heap.cutTo, RootStack.toList_truncate] at hb
        exact List.mem_of_mem_take hb)⟩)
    · exact hc.cutTo.conserves hlt
  · have hs₁ := hready.sound hs₀
    refine ⟨_, hcut (hre.moves (hp.moves hs₀ hready)), ?_⟩
    rcases hc with ⟨rfl, rfl⟩ | ⟨hlt, φ, hc⟩
    · refine ⟨hp.table, fun _ d type hf _ ↦ ?_, fun hep ↦ absurd (by
        rw [Heap.epochs, Heap.epochs, Heap.cutTo, hp.statistics]; rfl) hep⟩
      have hf₀ : Frozen (h.holding a n) l₁ d type := ⟨hf.object, hf.immutable, hf.outside⟩
      have hd := hf₀.carried_of_placed hs₀ hp
      exact ⟨hd.object, hd.outside, hd.tag, hd.view⟩
    · refine (hc.placed hs₁ hp).cutTo.conserves ?_
      rw [Heap.epochs, Heap.epochs, Heap.cutTo, hp.statistics]
      exact hlt

/-- Every instruction conserves what there is. -/
theorem Effect.conserves (hs : h.Sound l) (hroom : h.Headroom) (he : h.Effect l h' instr) :
    ∃ l', Moves h l h' l' ∧ Conserves h l h' l' := by
  have hedits : Edits h l h' → ∃ l', Moves h l h' l' ∧ Conserves h l h' l' := fun he ↦
    ⟨l, he.moves hs, he.conserves hs⟩
  cases instr with
  | allocate => exact Allocates.conserves hs hroom he
  | allocateUnder => exact Allocates.conserves hs hroom he
  | minorCollection =>
    obtain ⟨φ, l', hc, hroom', hcar⟩ := exists_carries_of_collect hs hroom he
    exact ⟨l', hc.moves hroom', hcar.conserves hc.epochs⟩
  | majorCollection =>
    obtain ⟨φ, l', hc, hroom', hcar⟩ := exists_carries_of_majorCollection hs hroom he
    exact ⟨l', hc.moves hroom', hcar.conserves hc.epochs⟩
  | _ => exact hedits he

/-- What a step keeps is frozen after it and looks as before. -/
theorem Conserves.frozen (hc : Conserves h l h' l') (hf : Frozen h l d type)
    (ht : Tracks φ h l h') (hr : Retains h l h' d) :
    Frozen h' l' (φ d) type ∧
      h'.memory.view h'.table (φ d) = (h.memory.view h.table d).map (·.map φ) := by
  by_cases hep : h'.epochs = h.epochs
  · rw [Tracks, if_pos hep] at ht
    rw [Retains, if_pos hep] at hr
    obtain rfl : φ = h'.memory.resolve := funext ht
    have hd := hc.still hep d type hf hr
    exact ⟨hf.carried hc.table hd, hd.view⟩
  · rw [Tracks, if_neg hep] at ht
    rw [Retains, if_neg hep] at hr
    obtain ⟨ψ, hψ⟩ := hc.moved hep
    have hd := hψ.carried d hr
    have he : φ d = ψ d := ht.unique hψ.toRelocates hr
    rw [he]
    refine ⟨hf.carried hc.table hd, hd.view.trans (Option.map_congr fun c hv ↦ ?_)⟩
    -- What the object refers to is spared as well.
    exact Contents.map_congr fun e hm ↦
      (ht.unique hψ.toRelocates (.field hr hv hm)).symm

/-- There is one way to follow the objects through a step, as far as they are spared. A collection
keeps them apart. -/
theorem Conserves.exists_tracks (hc : Conserves h l h' l') : ∃ φ, Tracks φ h l h' ∧
    (∀ ψ, Tracks ψ h l h' → ∀ d, Spared h l h' d → ψ d = φ d) ∧
    (h'.epochs ≠ h.epochs → ∀ d e, Spared h l h' d → Spared h l h' e → φ d = φ e → d = e) := by
  by_cases hep : h'.epochs = h.epochs
  · simp only [Tracks, if_pos hep]
    exact ⟨h'.memory.resolve, fun _ ↦ rfl, fun ψ hψ d _ ↦ hψ d, fun hn ↦ absurd hep hn⟩
  · simp only [Tracks, if_neg hep]
    obtain ⟨φ, hφ⟩ := hc.moved hep
    exact ⟨φ, hφ.toRelocates, fun ψ hψ d hd ↦ hψ.unique hφ.toRelocates hd,
      fun _ d e hd he ↦ hφ.injective d e hd he⟩

end Heap

namespace Mutator

/-- The run leads from one session to another. It keeps the object at `d`, and `φ` tells where the
objects are in the end. The remembered set may be in any order at any time. -/
inductive Keeps (s : Session) (l : Census) (d : Nat) : (Nat → Nat) → Session → Census → Prop
  | start : Keeps s l d id s l
  | step {φ ψ : Nat → Nat} {s' s'' : Session} {l' : Census} {instr : Instr} :
    Keeps s l d φ s' l' → Steps instr s' s'' → s'.heap.Tracks ψ l' s''.heap →
      s'.heap.Retains l' s''.heap (φ d) →
      Keeps s l d (ψ ∘ φ) s'' (l'.next s'.heap s''.heap)
  | reorder {φ : Nat → Nat} {s' : Session} {l' : Census} {h : Heap} :
    Keeps s l d φ s' l' → s'.heap.Reordered h → Keeps s l d φ { s' with heap := h } l'

variable {settings : Settings} {table : TypeTable} {s s' : Session} {l l' : Census} {instr : Instr}

private theorem Steps.conserves (hst : Steps instr s s') (hs : s.Sound l)
    (hroom : s.heap.Headroom) :
    s.heap.Conserves l s'.heap (l.next s.heap s'.heap) := by
  obtain ⟨l', hm, hc⟩ := (hst.effect hs hroom).conserves hs.heap hroom
  rwa [hm.follows.next_eq hs.heap hm.sound]

/-- In every session that a program can reach, objects can be followed through the next instruction
in one way. Followed through any run that keeps it, an immutable object that has left the nursery is
of the same type and looks as it did, up to where what it refers to is now, and all writes to it
fail, by whatever reference. -/
theorem Reaches.frozen_permanent (hr : Reaches settings table s l) :
    (∀ instr s', Steps instr s s' → ∃ φ, s.heap.Tracks φ l s'.heap ∧
      (∀ ψ, s.heap.Tracks ψ l s'.heap → ∀ d, s.heap.Spared l s'.heap d → ψ d = φ d) ∧
      (s'.heap.epochs ≠ s.heap.epochs → ∀ d e, s.heap.Spared l s'.heap d →
        s.heap.Spared l s'.heap e → φ d = φ e → d = e)) ∧
    ∀ d type φ s' l', s.heap.Frozen l d type → Keeps s l d φ s' l' →
      Reaches settings table s' l' ∧ s'.heap.Frozen l' (φ d) type ∧
      s'.heap.memory.view s'.heap.table (φ d) =
        (s.heap.memory.view s.heap.table d).map (·.map φ) ∧
      s'.heap.Locked l' (φ d) type := by
  refine ⟨fun instr s' hst ↦ (hst.conserves hr.sound hr.headroom).exists_tracks,
    fun d type φ s' l' hf hk ↦ ?_⟩
  suffices hs : Reaches settings table s' l' ∧ s'.heap.Frozen l' (φ d) type ∧
      s'.heap.memory.view s'.heap.table (φ d) =
        (s.heap.memory.view s.heap.table d).map (·.map φ) from
    ⟨hs.1, hs.2.1, hs.2.2, hs.2.1.locked⟩
  -- What is frozen is carried through each step, and the renamings of the steps compose.
  induction hk with
  | start => exact ⟨hr, hf, (Contents.map_map_id _).symm⟩
  | @step φ ψ s₁ s₂ l₁ instr _ hst ht hret ih =>
    obtain ⟨hr₁, hf₁, hv₁⟩ := ih
    obtain ⟨hf₂, hv₂⟩ := (hst.conserves hr₁.sound hr₁.headroom).frozen hf₁ ht hret
    refine ⟨hr₁.steps hst, hf₂, ?_⟩
    rw [Function.comp_apply, hv₂, hv₁, Option.map_map]
    simp only [Function.comp_def, Contents.map_map]
  | @reorder φ s₁ l₁ h _ ho ih =>
    obtain ⟨hr₁, hf₁, hv₁⟩ := ih
    refine ⟨hr₁.reorder ho, hf₁.reordered ho, ?_⟩
    rw [ho.heap]
    exact hv₁

namespace Sample

/-- Beside nodes, pairs of a plain field and a reference, with a tail of words, which are
immutable. -/
def pairTable : TypeTable := .ofList
  [{ name := "node", prims := 1, ptrs := 2, isMutable := true, units := .refs },
    { name := "pair", prims := 1, ptrs := 1, isMutable := false, units := .words }]

/-- A pair that refers to a node is filled and promoted. Then there is another node. -/
def pairProgram : List (Instr × Option String) :=
  [(.allocate 1 0 none, some "first"), (.makeRoot (.register "first"), none),
    (.allocate 2 1 none, some "pair"), (.makeRoot (.register "pair"), none),
    (.setPrim (.root 1) 0 7, none), (.setPtr (.root 1) 0 (.root 0), none),
    (.setTailWord (.root 1) 0 9, none), (.minorCollection, none),
    (.allocate 1 0 none, some "second"), (.makeRoot (.register "second"), none)]

/-- The first node is redirected to the second one, and all objects are moved. The sessions before,
between and after. -/
def pairRun : Option (Session × Session × Session) :=
  match Heap.create smallSettings pairTable with
  | .error _ => none
  | .ok heap =>
    match play pairProgram { heap } with
    | .error _ _ => none
    | .ok _ s =>
      match run (.redirect (.root 0) (.root 2)) none s with
      | .error _ _ => none
      | .ok _ s₁ =>
        match run .majorCollection none s₁ with
        | .error _ _ => none
        | .ok _ s₂ => some (s, s₁, s₂)

private theorem pairRun_isSome : pairRun.isSome = true := by decide +kernel

private theorem exists_pairRun : ∃ s l s₁ s₂, pairRun = some (s, s₁, s₂) ∧
    Reaches smallSettings pairTable s l ∧ Steps (.redirect (.root 0) (.root 2)) s s₁ ∧
    Steps .majorCollection s₁ s₂ := by
  obtain ⟨⟨s, s₁, s₂⟩, hrun⟩ := Option.isSome_iff_exists.mp pairRun_isSome
  have he := hrun
  unfold pairRun at he
  split at he
  · cases he
  · next heap hc =>
    split at he
    · cases he
    · next replies t hp =>
      split at he
      · cases he
      · next reply t₁ he₁ =>
        split at he
        · cases he
        · next reply' t₂ he₂ =>
          cases he
          obtain ⟨l, hr⟩ := (Reaches.start hc).play hp
          exact ⟨s, l, s₁, s₂, hrun, hr, ⟨none, .inl ⟨reply, he₁⟩⟩, ⟨none, .inl ⟨reply', he₂⟩⟩⟩

/-- The pair at `d` is frozen, refers to the node at `a`, and is kept by both steps. -/
theorem exists_pair : ∃ s l s₁ s₂ d type a, Reaches smallSettings pairTable s l ∧
    Steps (.redirect (.root 0) (.root 2)) s s₁ ∧ Steps .majorCollection s₁ s₂ ∧
    s.heap.Frozen l d type ∧
    s.heap.memory.view s.heap.table d = some ⟨[7], [some a], .words [9]⟩ ∧
    s₁.heap.epochs = s.heap.epochs ∧ s₁.heap.memory.hop? d = none ∧
    d ∈ s₁.heap.roots.toList ∧ s₂.heap.epochs ≠ s₁.heap.epochs := by
  obtain ⟨s, l, s₁, s₂, hrun, hr, hst₁, hst₂⟩ := exists_pairRun
  have hv : ∃ p ∈ pairRun, ∃ d ∈ p.1.heap.roots.toList[1]?,
      ∃ f ∈ p.1.heap.memory.form? p.1.heap.table d, ∃ a ∈ p.1.heap.roots.toList[0]?,
      p.1.heap.memory.hop? d = none ∧ f.type.isMutable = false ∧
      p.1.heap.nursery.region.contains d = false ∧
      p.1.heap.memory.view p.1.heap.table d = some ⟨[7], [some a], .words [9]⟩ ∧
      p.2.1.heap.epochs = p.1.heap.epochs ∧ p.2.1.heap.memory.hop? d = none ∧
      p.2.1.heap.roots.toList[1]? = some d ∧ p.2.2.heap.epochs ≠ p.2.1.heap.epochs := by
    decide +kernel
  obtain ⟨p, hp, d, hd, f, hform, a, -, hhop, hi, hout, hview, hep₁, hhop₁, hd₁, hep₂⟩ := hv
  obtain rfl : p = (s, s₁, s₂) := Option.some.inj (hp.symm.trans hrun)
  obtain ⟨sp, g, hn⟩ := (hr.sound.heap.roots d (List.mem_of_getElem? hd)).named
  have he : sp.start = d := hn.resolve.symm.trans (Memory.resolve_of_hop?_eq_none hhop)
  have hg : some g = some f := by rw [← hn.object.form?, he, hform]
  have hfrozen : s.heap.Frozen l d f.type :=
    ⟨⟨sp, g, hn.object, he, hn.notBlock, by rw [Option.some.inj hg]⟩, hi, hout⟩
  exact ⟨s, l, s₁, s₂, d, f.type, a, hr, hst₁, hst₂, hfrozen, hview, hep₁, hhop₁,
    List.mem_of_getElem? hd₁, hep₂⟩

end Sample

/-- A run in which what a promoted pair refers to is redirected and all objects are moved. -/
theorem frozen_sample : ∃ s l d type φ s' l' a, Reaches Sample.smallSettings Sample.pairTable s l ∧
    s.heap.Frozen l d type ∧ Keeps s l d φ s' l' ∧
    s.heap.memory.view s.heap.table d = some ⟨[7], [some a], .words [9]⟩ ∧
    s'.heap.Frozen l' (φ d) type ∧
    s'.heap.memory.view s'.heap.table (φ d) = some ⟨[7], [some (φ a)], .words [9]⟩ ∧
    s'.heap.Locked l' (φ d) type := by
  obtain ⟨s, l, s₁, s₂, d, type, a, hr, hst₁, hst₂, hfrozen, hview, hep₁, hhop₁, hmem₁, hep₂⟩ :=
    Sample.exists_pair
  obtain ⟨φ, hφ, -⟩ := hr.frozen_permanent.1 _ _ hst₁
  obtain ⟨ψ, hψ, -⟩ := (hr.steps hst₁).frozen_permanent.1 _ _ hst₂
  have hself : s₁.heap.memory.resolve d = d := Memory.resolve_of_hop?_eq_none hhop₁
  have hφd : φ d = d := by
    rw [Heap.Tracks, if_pos hep₁] at hφ
    rw [hφ, hself]
  have hspared : s₁.heap.Spared (l.next s.heap s₁.heap) s₂.heap (s₁.heap.memory.resolve d) :=
    .root hmem₁
  have hkeeps : Keeps s l d (ψ ∘ φ) s₂ ((l.next s.heap s₁.heap).next s₁.heap s₂.heap) := by
    refine .step (.step .start hst₁ hφ ?_) hst₂ hψ ?_
    · rw [Heap.Retains, if_pos hep₁]
      exact hhop₁
    · rw [Heap.Retains, if_neg hep₂, hφd]
      rwa [hself] at hspared
  obtain ⟨-, hfrozen', hview', hlocked⟩ := hr.frozen_permanent.2 d _ _ _ _ hfrozen hkeeps
  refine ⟨s, l, d, type, ψ ∘ φ, s₂, _, a, hr, hfrozen, hkeeps, hview, hfrozen', ?_, hlocked⟩
  rw [hview', hview]
  rfl

end Mutator

end Tenure
