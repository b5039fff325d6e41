import Tenure.Proofs.Following
import Tenure.Proofs.Invariants
import Tenure.Proofs.Promotions

/-!
# Redirections

A program may let objects stand for one another in any order, and collections turn the headers of
the objects that they move into indirections and shorten others. Still no chain of indirections
becomes a circle, so a walk along one is never cut off. Main statement: `Reaches.redirect_unites`,
chains end, and to redirect an object is to unite it with its target and to change nothing else.
-/

namespace Tenure

/-- The chain from `a` ends, and whoever follows it finds its end. -/
def Memory.Halts (m : Memory) (a : Nat) : Prop :=
  ∃ k d, m.LeadsIn k a d ∧ m.chase a = (k, d)

namespace Memory

variable {m m' : Memory} {table : TypeTable} {f : Form} {a n : Nat}

/-- A chain that leads somewhere ends. -/
theorem Leads.halts {d : Nat} (h : m.Leads a d) : m.Halts a := by
  obtain ⟨k, hk⟩ := h
  exact ⟨k, d, hk, hk.chase⟩

private theorem wordsAt_congr (h : ∀ i < n, m'.read (a + i) = m.read (a + i)) :
    m'.wordsAt a n = m.wordsAt a n := by
  apply List.map_congr_left
  intro p hp
  obtain ⟨h₀, h₁⟩ := List.mem_range'_1.mp hp
  have hi := h (p - a) (by omega)
  rwa [Nat.add_sub_cancel' h₀] at hi

/-- The contents of an object are what its parts hold. -/
theorem contents?_congr (hf : m.form? table a = some f) (hf' : m'.form? table a = some f)
    (h : ∀ part, f.Has part → m'.read (f.cell m a part) = m.read (f.cell m a part)) :
    m'.contents? table a = m.contents? table a := by
  by_cases hb : f.IsBlock
  · have htag := tagBits_of_form? hf
    have htag' := tagBits_of_form? hf'
    rw [Form.IsBlock] at hb
    simp only [contents?, htag, htag', hb, if_true]
  · have hat : f.unitsAt m' a = f.unitsAt m a := by
      simp only [Form.unitsAt]
      cases ht : f.tail with
      | inline => rfl
      | outOfLine =>
        have hlink : m'.read (a + 1 + f.type.fields) = m.read (a + 1 + f.type.fields) := h .link ht
        rw [hlink]
    have hprims : m'.wordsAt (a + 1) f.type.prims = m.wordsAt (a + 1) f.type.prims :=
      wordsAt_congr fun i hi ↦ h (.prim i) hi
    have hptrs : m'.wordsAt (a + 1 + f.type.prims) f.type.ptrs =
        m.wordsAt (a + 1 + f.type.prims) f.type.ptrs :=
      wordsAt_congr fun i hi ↦ h (.ptr i) hi
    have hunits : m'.wordsAt (f.unitsAt m a) f.size = m.wordsAt (f.unitsAt m a) f.size :=
      wordsAt_congr fun i hi ↦ h (.unit i) hi
    simp only [contents?_of_form? hf hb, contents?_of_form? hf' hb, hat, refsAt, hprims, hptrs,
      hunits]

/-- The references in the contents of an object are stored in its parts. -/
theorem mem_references_contents? {c : Contents Nat} {b : Nat} (hf : m.form? table a = some f)
    (hb : ¬ f.IsBlock) (hc : m.contents? table a = some c) (hm : b ∈ c.references) :
    ∃ part, f.Refers part ∧ Word.toRef? (m.read (f.cell m a part)) = some b := by
  have hrefs : ∀ start n, b ∈ (m.refsAt start n).filterMap id →
      ∃ i < n, Word.toRef? (m.read (start + i)) = some b := by
    intro start n h
    simp only [refsAt, wordsAt, List.map_map, List.mem_filterMap, List.mem_map, id,
      List.mem_range'_1] at h
    obtain ⟨x, ⟨p, hp, rfl⟩, hx⟩ := h
    refine ⟨p - start, by omega, ?_⟩
    rw [Nat.add_sub_cancel' hp.1]
    exact hx
  rw [contents?_of_form? hf hb] at hc
  cases hc
  rcases List.mem_append.mp hm with hp | hu
  · obtain ⟨i, hi, hx⟩ := hrefs _ _ hp
    exact ⟨.ptr i, hi, hx⟩
  · cases hk : f.type.units with
    | words =>
      rw [hk] at hu
      cases hu
    | refs =>
      rw [hk] at hu
      obtain ⟨i, hi, hx⟩ := hrefs _ _ hu
      exact ⟨.unit i, ⟨hi, hk⟩, hx⟩

end Memory

namespace Heap

/-- A reference to `a` can be followed to a direct object whose tag has a type. The description of
the object has a mark for each indirection on the way. -/
structure Resolves (h : Heap) (a : Nat) : Prop where
  chain : ∃ k rest, h.memory.LeadsIn k a (h.memory.resolve a) ∧
    h.memory.chase a = (k, h.memory.resolve a) ∧
    describe a h = .ok (String.join (List.replicate k "IND ") ++ rest) h
  direct : h.IsDirect (h.memory.resolve a)
  tag : h.table.contains (h.memory.header (h.memory.resolve a)).tagBits = true

/-- Redirecting `a` to `b` unites what the two denote, as far as the references in `live` tell. -/
structure Unites (h : Heap) (l : Census) (live : Nat → Prop) (a b : Nat) : Prop where
  refused_iff : (∃ e h', redirect a b h = .error e h') ↔ h.memory.resolve a = h.memory.resolve b
  refused : h.memory.resolve a = h.memory.resolve b →
    redirect a b h = .error (.violation .selfRedirect) h
  united : h.memory.resolve a ≠ h.memory.resolve b → ∃ h', redirect a b h = .ok () h' ∧
    (∀ x, live x → h'.Resolves x ∧ h'.memory.resolve x =
      if h.memory.resolve x = h.memory.resolve a then h.memory.resolve b
      else h.memory.resolve x) ∧
    (∀ p, p ≠ h.memory.resolve a → h'.memory.read p = h.memory.read p) ∧
    ∀ t ∈ l.objects, h.IsDirect t.start → t.start ≠ h.memory.resolve a → h'.IsDirect t.start ∧
      h'.memory.contents? h'.table t.start = h.memory.contents? h.table t.start

/-- The pass of a scavenge. -/
def scavengePass (h : Heap) : Evacuation where
  table := h.table
  source := h.semispace.active
  padding := h.settings.padding
  compact := h.settings.compactTails

variable {h h' : Heap} {l : Census} {os : List Span} {s t : Span} {f g : Form} {a b : Nat}

/-! ### Chains -/

private theorem resolves_of_leads (hl : h.memory.Leads a t.start) (hg : h.Object l t g) :
    h.Resolves a := by
  obtain ⟨k, hk⟩ := hl
  have hc := hk.chase
  have hline : describe a h =
      .ok (String.join (List.replicate k "IND ") ++ g.type.line g.size g.tail) h := by
    simp only [describe, hk.describe_eq, Memory.line_of_form? hg.form?, Except.map, escalating,
      attempt]
  have hr : h.memory.resolve a = t.start := by rw [Memory.resolve, hc]
  rw [← hr] at hk hc
  refine ⟨⟨k, _, hk, hc, hline⟩, ?_, ?_⟩
  · rw [hr]
    exact Memory.isIndirection_of_form? hg.form?
  · rw [hr, Memory.tagBits_of_form? hg.form?]
    exact Memory.contains_of_form? hg.form?

private theorem Valid.resolves (hv : h.Valid l a) : h.Resolves a := by
  obtain ⟨d, -, hl, t, g, hg, rfl, -⟩ := hv
  exact resolves_of_leads hl hg

/-- Every object is direct or leads to a direct one. -/
theorem Sound.leads_of_mem (hs : h.Sound l) (hm : s ∈ l.objects) :
    ∃ t g, h.memory.Leads s.start t.start ∧ h.Object l t g :=
  hs.wellFormed.leads_of_mem hm

private theorem Sound.resolves (hs : h.Sound l) (hm : s ∈ l.objects) : h.Resolves s.start := by
  obtain ⟨t, g, hl, hg⟩ := hs.leads_of_mem hm
  exact resolves_of_leads hl hg

/-- Chains end before the end of an epoch, whatever has been promoted and in whatever order. -/
theorem Sound.halts_of_promotions (hs : h.Sound l) (hroom : h.Headroom)
    {remembered depths : List Nat} (hrem : remembered.Perm h.nursery.remembered)
    (hd : ∀ i ∈ depths, i < h.roots.size) :
    ∃ h', promotions remembered depths h = .ok () h' ∧
      (∀ s ∈ l.objects, h'.memory.Halts s.start) ∧ ∀ a ∈ h'.roots.toList, h'.memory.Halts a := by
  obtain ⟨_, h', he, cs, hu, -, hr⟩ := ((ends_promotions hs hrem hd).mono (fun _ _ hg ↦ hg)
    fun _ _ hstuck ↦ hstuck.not_headroom hs hroom).exists_eq_ok
  refine ⟨h', he, fun s hm ↦ ?_, fun b hb ↦ ?_⟩
  · obtain ⟨t, g, hl, hg⟩ := hs.leads_of_mem hm
    exact (hu.holds.leads hs.epochOrigin hg (.of_mem hm) hl).halts
  · obtain ⟨i, hi, rfl⟩ := List.getElem_of_mem hb
    have hi' : i < h.roots.toList.length := by
      rwa [RootStack.length_toList, hr.size, ← RootStack.length_toList] at hi
    obtain ⟨u, f, -, -, -, hl⟩ :=
      hr.leads hs hu (List.getElem?_eq_getElem hi') (List.getElem?_eq_getElem hi)
    exact hl.halts

/-- Chains end in the middle of a scavenge, when some of the roots were evacuated. -/
theorem Sound.halts_of_evacuations (hs : h.Sound { old := os }) {as : List Nat}
    (ha : ∀ a ∈ as, a ∈ h.roots.toList) :
    ∃ rs st, as.mapM h.scavengePass.evacuate
        { memory := h.memory, target := h.semispace.reserve } = .ok rs st ∧
      ∀ s ∈ os, st.memory.Halts s.start := by
  have ho := hs.scavengeOrigin
  have hleads : ∀ a s f cs m target, IsObject os a → h.Object { old := os } s f →
      h.memory.Leads a s.start → (h.scavengeOrigin os).Holds cs m target →
      m.Leads a (cs.current s.start) := by
    intro a s f cs m target hob hf hl hh
    exact hh.leads ho (object_scavengeOrigin.mpr hf) (by rwa [objects_scavengeOrigin]) hl
  have hpass : Ends (as.mapM h.scavengePass.evacuate)
      { memory := h.memory, target := h.semispace.reserve }
      (fun _ st ↦ ∃ cs, (h.scavengeOrigin os).Holds cs st.memory st.target)
      (h.scavengeOrigin os).Stuck := by
    refine Ends.mapM (fun _ _ (st : CopyState) ↦
      ∃ cs, (h.scavengeOrigin os).Holds cs st.memory st.target)
      ⟨[], ho.holds⟩ ?_
    rintro done rs a rest st hx ⟨cs, hh⟩
    have ham : a ∈ h.roots.toList := ha a (by rw [hx]; simp)
    obtain ⟨hob, hl, d, f, hf, he, -⟩ := (hs.roots a ham).denotes
    rw [← he] at hl
    apply (Origin.ends_evacuate ho hh (object_scavengeOrigin.mpr hf) (.start ham hl)
      (hleads a d f _ _ _ hob hf hl hh)).imp
    rintro r st' ⟨cs', hh', -⟩
    exact ⟨cs', hh'⟩
  obtain ⟨rs, st, he, cs, hh⟩ :=
    (hpass.mono (fun _ _ hg ↦ hg) fun _ _ hstuck ↦ hs.not_stuck_scavengeOrigin hstuck).exists_eq_ok
  refine ⟨rs, st, he, fun s hm ↦ ?_⟩
  obtain ⟨t, g, hl, hg⟩ := hs.leads_of_mem hm
  exact (hleads _ _ _ _ _ _ (.of_mem hm) hg hl hh).halts

/-! ### Redirections -/

/-- Only the header of the object that was redirected has changed. -/
theorem Redirected.read_of_ne (hr : Redirected h l s t h') {p : Nat} (hp : p ≠ s.start) :
    h'.memory.read p = h.memory.read p := by
  rw [hr.memory]
  exact Memory.read_write_of_ne _ (Ne.symm hp)

/-- The fields of all other objects are as they were. -/
theorem Redirected.contents? (hs : h.Sound l) (hr : Redirected h l s t h') {u : Span}
    (hg : h.Object l u g) (hne : u ≠ s) :
    h'.memory.contents? h'.table u.start = h.memory.contents? h.table u.start := by
  obtain ⟨f, hf, -⟩ := hr.object
  have hg' := ((hr.object_iff hs).mpr ⟨hg, hne⟩).form?
  rw [hr.table] at hg' ⊢
  apply Memory.contents?_congr hg.form? hg'
  intro part hp
  exact hr.read_of_ne (hs.wellFormed.cell_ne_start hg hp hf.mem)

/-- The references in `live` are valid, so a redirection does to them what it should. -/
theorem Sound.unites (hs : h.Sound l) {live : Nat → Prop} (hlive : ∀ x, live x → h.Valid l x)
    (ha : h.Valid l a) (hb : h.Valid l b) : h.Unites l live a b := by
  obtain ⟨s, f, hn⟩ := ha.named
  obtain ⟨t, g, hg⟩ := hb.named
  have hends := ends_redirect hn hg
  cases hx : redirect a b h with
  | error e h' =>
    obtain ⟨rfl, rfl, he⟩ := hends.of_eq_error hx
    have hab : h'.memory.resolve a = h'.memory.resolve b := by rw [hn.resolve, hg.resolve, he]
    exact ⟨iff_of_true ⟨_, _, hx⟩ hab, fun _ ↦ hx, fun hne ↦ absurd hab hne⟩
  | ok _ h' =>
    have hr := hends.of_eq_ok hx
    have hab : h.memory.resolve a ≠ h.memory.resolve b := by
      rw [hn.resolve, hg.resolve]
      intro he
      exact hr.distinct (hs.wellFormed.eq_of_start hn.object.mem hg.object.mem he)
    refine ⟨iff_of_false ?_ hab, fun he ↦ absurd he hab, fun _ ↦ ⟨h', hx, ?_⟩⟩
    · rintro ⟨e, h'', he⟩
      rw [hx] at he
      cases he
    rw [hn.resolve, hg.resolve]
    refine ⟨fun x hxl ↦ ?_, fun p hp ↦ hr.read_of_ne hp, fun u hu hd hne ↦ ?_⟩
    · have hv := hlive x hxl
      exact ⟨(hr.valid_of_valid hs hv).resolves, hr.resolve hs hv⟩
    · obtain ⟨k, hk⟩ := hs.object_of_direct hu hd
      have hus : u ≠ s := fun he ↦ hne (by rw [he])
      have hk' := (hr.object_iff hs).mpr ⟨hk, hus⟩
      exact ⟨Memory.isIndirection_of_form? hk'.form?, hr.contents? hs hk hus⟩

end Heap

namespace Mutator

/-- The references that a program has at hand, or can get from those without another object being
made: roots, registers that are not stale, and what is stored in the objects that these lead to. -/
inductive Session.Has (s : Session) : Nat → Prop
  | root {a : Nat} : a ∈ s.heap.roots.toList → Has s a
  | register {e : String × Register} {a : Nat} : e ∈ s.registers → e.2.epochs = s.heap.epochs →
      e.2.value = some a → Has s a
  | field {a b : Nat} {c : Contents Nat} : Has s a →
      s.heap.memory.contents? s.heap.table (s.heap.memory.resolve a) = some c →
      b ∈ c.references → Has s b
  | target {a b : Nat} : Has s a → s.heap.memory.hop? a = some b → Has s b

/-- Chains of indirections end, and redirections unite what references denote. -/
structure Session.Unites (s : Session) (l : Census) : Prop where
  /-- A live reference is the address of an object. -/
  live : ∀ a, s.Has a → IsObject l.objects a
  resolves : ∀ o ∈ l.objects, s.heap.Resolves o.start
  /-- Chains end in the middle of an epoch, in whatever order it promotes. -/
  epoch : ∀ remembered depths, remembered.Perm s.heap.nursery.remembered →
    (∀ i ∈ depths, i < s.heap.roots.size) →
    ∃ h, Heap.promotions remembered depths s.heap = .ok () h ∧
      (∀ o ∈ l.objects, h.memory.Halts o.start) ∧ ∀ a ∈ h.roots.toList, h.memory.Halts a
  /-- Chains end in the middle of a scavenge after an epoch, when some of the roots were
  evacuated. -/
  scavenge : ∃ h, Heap.promoteNursery s.heap = .ok () h ∧
    ∀ as : List Nat, (∀ a ∈ as, a ∈ h.roots.toList) → ∃ rs st,
      as.mapM h.scavengePass.evacuate { memory := h.memory, target := h.semispace.reserve } =
        .ok rs st ∧
      ∀ o ∈ (l.next s.heap h).objects, st.memory.Halts o.start
  redirect : ∀ a b, s.Has a → s.Has b → s.heap.Unites l s.Has a b

variable {settings : Settings} {table : TypeTable} {s : Session} {l : Census} {a : Nat}

/-- Live references are valid. -/
theorem Session.Has.valid (ha : s.Has a) (hs : s.Sound l) : s.heap.Valid l a := by
  induction ha with
  | root ha => exact hs.heap.roots _ ha
  | register he hq ha => exact hs.registers _ he hq _ ha
  | @field a b c _ hc hb ih =>
    obtain ⟨sp, f, hn⟩ := ih.named
    rw [hn.resolve] at hc
    obtain ⟨part, hp, hr⟩ :=
      Memory.mem_references_contents? hn.object.form? hn.notBlock hc hb
    rcases hs.heap.wellFormed.reference sp f hn.object part hp with hz | ⟨d, hd, hv⟩
    · rw [hz] at hr
      cases hr
    · rw [hd, hs.heap.wellFormed.toRef?_ofAddr hv.denotes.1] at hr
      cases hr
      exact hv
  | target _ hh ih => exact hs.heap.wellFormed.valid_of_hop? ih.denotes.1 hh

/-- In every session that a program can reach, chains of indirections end, and a redirection
unites. -/
theorem Reaches.redirect_unites (hr : Reaches settings table s l) : s.Unites l := by
  have hs := hr.sound
  obtain ⟨h, l', he, hc⟩ := hs.heap.exists_promoted hr.headroom
  refine ⟨fun a ha ↦ (ha.valid hs).denotes.1, fun o ho ↦ hs.heap.resolves ho,
    fun remembered depths hrem hd ↦ hs.heap.halts_of_promotions hr.headroom hrem hd, ⟨h, he, ?_⟩,
    fun a b ha hb ↦ hs.heap.unites (fun x hx ↦ hx.valid hs) (ha.valid hs) (hb.valid hs)⟩
  intro as ha
  rw [hc.follows.next_eq hs.heap hc.sound]
  obtain ⟨rs, st, hst, hh⟩ := hc.sound_old.halts_of_evacuations ha
  refine ⟨rs, st, hst, fun o ho ↦ hh o ?_⟩
  rw [Census.objects, hc.young, List.nil_append] at ho
  exact ho

/-- A run after which the first root denotes what the tail of the second one refers to, so that the
one cannot be redirected to the other. -/
theorem redirect_sample : ∃ s l, Reaches Sample.smallSettings Sample.nodeTable s l ∧
    (s.heap.roots.toList.map fun a ↦ (s.heap.memory.chase a).1) = [1, 0] ∧ s.Unites l := by
  obtain ⟨s, l, hs, hr⟩ := Sample.reaches
  have hc : (Sample.session Sample.smallSettings).map (fun s ↦
      s.heap.roots.toList.map fun a ↦ (s.heap.memory.chase a).1) = some [1, 0] := by
    decide +kernel
  rw [hs] at hc
  exact ⟨s, l, hr, Option.some.inj hc, hr.redirect_unites⟩

end Mutator

end Tenure
