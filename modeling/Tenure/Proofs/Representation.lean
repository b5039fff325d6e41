import Tenure.Proofs.Ideal
import Tenure.Proofs.Session

/-!
# How a session represents an ideal heap

A placement tells where in memory the objects of an ideal heap lie. Objects that can no longer be
named need not lie anywhere. Main statements: how the placement goes on when a part is written, an
object is redirected, a new object is placed, and when a collection moves the objects.
-/

namespace Tenure.Ideal

open Mutator (Session Operand Register)

/-- The two references denote the same object, or both are null. -/
def Means (loc : Nat → Option Nat) (h : Heap) (v : Option Nat) (value : Option Nat) : Prop :=
  v.map loc = value.map fun a ↦ some (h.memory.resolve a)

/-- The session represents the ideal heap, where object `x` lies at `loc x`. -/
structure Represents (loc : Nat → Option Nat) (s : Session) (t : Ideal) : Prop where
  table : s.heap.table = t.table
  /-- Different objects lie at different places. -/
  injective : ∀ x y d, loc x = some d → loc y = some d → x = y
  /-- An object looks as it should, and all objects that it refers to lie somewhere as well. -/
  object : ∀ x d, loc x = some d → ∃ o c, t.objects[x]? = some o ∧
    (s.heap.memory.header d).tagBits = o.tag ∧
    s.heap.memory.view s.heap.table d = some c ∧ o.contents.map loc = c.map some
  /-- The entries of the root stack denote what they should. -/
  stack : t.stack.toList.map loc = s.heap.roots.toList.map fun a ↦ some (s.heap.memory.resolve a)
  /-- So do the registers that are not stale. -/
  registers : ∀ name value epochs, s.registers.lookup name = some ⟨value, epochs⟩ →
    (value = none ∨ epochs = s.heap.epochs) →
    ∃ v, t.registers.lookup name = some v ∧ Means loc s.heap v value
  roots : t.roots = s.roots

/-- A sound session represents the ideal heap by direct objects. -/
structure Related (loc : Nat → Option Nat) (s : Session) (l : Census) (t : Ideal) : Prop
    extends Represents loc s t where
  sound : s.Sound l
  located : ∀ x d, loc x = some d → s.heap.Valid l d ∧ s.heap.memory.resolve d = d

variable {loc loc' : Nat → Option Nat} {s s' : Session} {h h' : Heap} {l l' : Census} {t : Ideal}
  {x y d a : Nat} {v value : Option Nat} {part : Part} {w : Word} {sp u : Span} {f g : Form}

/-- The order of the remembered set plays no part in what a session represents. -/
theorem Related.reordered (hr : Related loc s l t) (ho : s.heap.Reordered h') :
    Related loc { s with heap := h' } l t := by
  have hs := hr.sound.reordered ho
  rw [ho.heap] at hs ⊢
  exact { hr with sound := hs }

/-! ### Contents -/

section Contents

variable {ρ σ : Type}

/-- All references of the contents lie somewhere. -/
theorem located_of_mem {c : Contents Nat} {c' : Contents ρ} {k : Nat → Option ρ}
    (hc : c.map k = c'.map some) (hx : x ∈ c.references) : ∃ e ∈ c'.references, k x = some e := by
  have hm : k x ∈ (c.map k).references := by
    rw [Contents.references_map]
    exact List.mem_map_of_mem hx
  rw [hc, Contents.references_map] at hm
  obtain ⟨e, he, heq⟩ := List.mem_map.mp hm
  exact ⟨e, he, heq.symm⟩

/-- Contents that correspond still do so when references are renamed on both sides. -/
theorem contents_relocated {r φ : Nat → Nat} {c c' : Contents Nat} (hc : c.map loc = c'.map some)
    (hk : ∀ x, ∀ e ∈ c'.references, loc x = some e → loc' (r x) = some (φ e)) :
    (c.map r).map loc' = (c'.map φ).map some := by
  have hx : ∀ x ∈ c.references, loc' (r x) = (loc x).map φ := by
    intro x hx
    obtain ⟨e, he, hloc⟩ := located_of_mem hc hx
    rw [hk x e he hloc, hloc, Option.map_some]
  calc (c.map r).map loc'
      = c.map fun x ↦ (loc x).map φ := by
        rw [Contents.map_map]
        exact Contents.map_congr hx
    _ = (c.map loc).map (Option.map φ) := by
        rw [Contents.map_map]
        rfl
    _ = (c'.map φ).map some := by
        rw [hc, Contents.map_map, Contents.map_map]
        rfl

/-- Lists of references follow a renaming as each of their elements does. -/
theorem list_relocated {r res res' : Nat → Nat} {xs ys : List Nat}
    (h : xs.map loc = ys.map fun a ↦ some (res a))
    (hk : ∀ x, ∀ a ∈ ys, loc x = some (res a) → loc' (r x) = some (res' a)) :
    (xs.map r).map loc' = ys.map fun a ↦ some (res' a) := by
  induction xs generalizing ys with
  | nil =>
    cases ys with
    | nil => rfl
    | cons a ys => cases h
  | cons x xs ih =>
    cases ys with
    | nil => cases h
    | cons a ys =>
      obtain ⟨hx, hxs⟩ := List.cons.inj h
      have hrest := ih hxs fun y b hb ↦ hk y b (List.mem_cons_of_mem _ hb)
      rw [List.map_cons, List.map_cons, hrest, hk x a (List.mem_cons_self ..) hx, List.map_cons]

end Contents

/-! ### Lookups -/

section Lookup

variable (hr : Related loc s l t)
include hr

/-- An object of the ideal heap that lies somewhere can be named there. -/
theorem Related.named (hx : loc x = some d) : ∃ sp f, s.heap.Named l d sp f ∧ sp.start = d := by
  obtain ⟨hv, hd⟩ := hr.located x d hx
  obtain ⟨sp, f, hn⟩ := hv.named
  exact ⟨sp, f, hn, by rw [← hn.resolve, hd]⟩

/-- A register that is not stale holds a valid reference. -/
theorem Related.valid_of_lookup {name : String} {epochs : Nat}
    (hl : s.registers.lookup name = some ⟨some a, epochs⟩) (he : epochs = s.heap.epochs) :
    s.heap.Valid l a := by
  exact hr.sound.registers _ (Mutator.mem_of_lookup hl) he a rfl

end Lookup

/-- References that correspond still do so when objects are renamed on both sides. -/
theorem Means.relocated {r : Nat → Nat} (hm : Means loc h v value)
    (hk : ∀ x a, value = some a → loc x = some (h.memory.resolve a) →
      loc' (r x) = some (h'.memory.resolve a)) : Means loc' h' (v.map r) value := by
  unfold Means at hm ⊢
  cases v with
  | none =>
    cases value with
    | none => rfl
    | some a => cases hm
  | some x =>
    cases value with
    | none => cases hm
    | some a =>
      simp only [Option.map_some, Option.some.injEq] at hm ⊢
      exact hk x a rfl hm

/-- References mean the same while their objects stay where they are. -/
theorem Means.mono (hm : Means loc h v value) (hext : ∀ x d, loc x = some d → loc' x = some d)
    (hres : ∀ a, value = some a → h'.memory.resolve a = h.memory.resolve a) :
    Means loc' h' v value := by
  have hnext : Means loc' h' (v.map id) value := by
    apply hm.relocated
    intro x a ha hx
    rw [hres a ha]
    exact hext x _ hx
  rwa [Option.map_id] at hnext

/-- A reference is null just if it means null. -/
theorem Means.isSome_eq (hm : Means loc h v value) : v.isSome = value.isSome := by
  have he := congrArg Option.isSome hm
  rwa [Option.isSome_map, Option.isSome_map] at he

/-! ### While objects stay where they are -/

/-- A step of the heap after which references denote what they denoted, and all objects lie where
they lay. -/
theorem Related.stays {objects : List Object} (hr : Related loc s l t)
    (hm : s.heap.Moves l h' l') (htable : h'.table = s.heap.table)
    (hep : h'.epochs = s.heap.epochs) (hroots : h'.roots = s.heap.roots)
    (hres : ∀ a, s.heap.Valid l a → h'.memory.resolve a = s.heap.memory.resolve a)
    (hext : ∀ x d, loc x = some d → loc' x = some d)
    (hinj : ∀ x y d, loc' x = some d → loc' y = some d → x = y)
    (hobj : ∀ x d, loc' x = some d → ∃ o c, objects[x]? = some o ∧
      (h'.memory.header d).tagBits = o.tag ∧ h'.memory.view h'.table d = some c ∧
      o.contents.map loc' = c.map some)
    (hloc : ∀ x d, loc' x = some d → loc x = some d ∨ h'.Valid l' d ∧ h'.memory.resolve d = d) :
    Related loc' { s with heap := h' } l' { t with objects } where
  table := htable.trans hr.table
  injective := hinj
  object := hobj
  stack := by
    simp only [hroots]
    rw [← List.map_id t.stack.toList]
    apply list_relocated hr.stack
    intro x a ha hx
    rw [hres a (hr.sound.heap.roots a ha)]
    exact hext x _ hx
  registers := by
    intro name value epochs hl hf
    obtain ⟨v, hv, hmeans⟩ := hr.registers name value epochs hl (hf.imp id fun he ↦ he.trans hep)
    refine ⟨v, hv, hmeans.mono hext fun a ha ↦ hres a ?_⟩
    subst ha
    exact hr.valid_of_lookup hl ((hf.resolve_left (by simp)).trans hep)
  roots := hr.roots
  sound := hr.sound.goes ⟨hm, rfl⟩
  located := by
    intro x d hx
    rcases hloc x d hx with hx | hx
    · obtain ⟨hv, hd⟩ := hr.located x d hx
      exact ⟨hm.valid hep d hv, by rw [hres d hv, hd]⟩
    · exact hx

/-- Writing a part changes the same part of the same object. -/
theorem Related.stored {o : Object} (v' : Option Nat) (hr : Related loc s l t)
    (hst : s.heap.Stored l sp f part w v h') (hx : loc x = some sp.start)
    (ho : t.objects[x]? = some o) (hv : Means loc s.heap v' v) :
    Related loc { s with heap := h' } l (t.put x (o.contents.store part w v')) := by
  have hs := hr.sound.heap
  refine hr.stays (hst.moves hs) hst.table ?_ hst.roots (fun a ha ↦ hst.resolve hs ha)
    (fun _ _ hy ↦ hy) hr.injective (fun y d hy ↦ ?_) fun _ _ hy ↦ .inl hy
  · rw [Heap.epochs, Heap.epochs, hst.heap]
    rfl
  · obtain ⟨o', c, ho', htag, hc, hmap⟩ := hr.object y d hy
    obtain ⟨u, g, hn, rfl⟩ := hr.named hy
    have hheader : h'.memory.header u.start = s.heap.memory.header u.start := by
      rw [Memory.header, Memory.header, hst.read_start hs hn.object.mem]
    rw [hheader]
    by_cases hyx : y = x
    · subst hyx
      have hu : u = sp := hs.wellFormed.eq_of_start hn.object.mem hst.object.mem
        (Option.some.inj (hy.symm.trans hx))
      subst hu
      obtain rfl : o' = o := Option.some.inj (ho'.symm.trans ho)
      refine ⟨⟨o'.tag, o'.contents.store part w v'⟩,
        c.store part w (v.map s.heap.memory.resolve), ?_, htag, ?_, ?_⟩
      · rw [List.getElem?_modify_eq, ho', Option.map_eq_map, Option.map_some]
      · rw [hst.view hs, hc, Option.map_some]
      · simp only
        rw [Contents.map_store, Contents.map_store, hmap, hv, Option.map_map]
        rfl
    · have hne : sp ≠ u := by
        rintro rfl
        exact hyx (hr.injective y x _ hy hx)
      refine ⟨o', c, ?_, htag, ?_, hmap⟩
      · rw [List.getElem?_modify_ne _ _ (show x ≠ y from fun he ↦ hyx he.symm), ho']
      · rw [hst.view_of_ne hs hn.object hn.notBlock hne, hc]

/-- A new object looks as it should. -/
theorem view_placed (hs : h.Sound l) (hp : h.Placed f a h') :
    h'.memory.view h'.table a = some (.blank f.type f.size) := by
  have hn := hp.named hs
  have hv := hp.vacant hs
  have hzero : ∀ part, f.Has part → part ≠ .link →
      h'.memory.read (f.cell h'.memory a part) = 0 := by
    intro part hpart hl
    rw [hp.memory]
    exact Memory.read_cell_place hv hpart hl
  have hnull : ∀ part, f.Has part → part ≠ .link →
      h'.memory.denoted? (f.cell h'.memory a part) = none := by
    intro part hpart hl
    rw [Memory.denoted?, hzero part hpart hl]
    exact congrArg _ Word.toRef?_null
  have hrange : ∀ {α : Type} {n : Nat} {x : Nat → α} {e : α}, (∀ i < n, x i = e) →
      (List.range n).map x = List.replicate n e := by
    intro α n x e hx
    apply List.ext_getElem (by simp)
    intro i hi _
    simp only [List.getElem_map, List.getElem_range, List.getElem_replicate]
    exact hx i (by simpa using hi)
  rw [Memory.view_of_form? hn.object.form? hn.notBlock, Contents.blank]
  rw [hrange fun i hi ↦ hzero (.prim i) hi (by simp), hrange fun i hi ↦ hnull (.ptr i) hi (by simp)]
  cases f.type.units with
  | words => simp only [hrange fun i hi ↦ hzero (.unit i) hi (by simp)]
  | refs => simp only [hrange fun i hi ↦ hnull (.unit i) hi (by simp)]

/-- A new object is placed at a new address. -/
theorem Related.placed (hr : Related loc s l t) (hp : s.heap.Placed f a h') :
    Related (fun x ↦ if x = t.objects.length then some a else loc x) { s with heap := h' }
      (l.place f s.heap.settings.padding a)
      { t with objects := t.objects ++ [⟨f.tag, .blank f.type f.size⟩] } := by
  have hs := hr.sound.heap
  have hlt : ∀ y d, loc y = some d → y < t.objects.length := by
    intro y d hy
    obtain ⟨o, _, ho, -⟩ := hr.object y d hy
    exact (List.getElem?_eq_some_iff.mp ho).1
  have hne : ∀ y d, loc y = some d → d ≠ a := by
    intro y d hy he
    obtain ⟨u, g, hn, hu⟩ := hr.named hy
    rcases (hp.vacant hs).apart u hn.object.mem with hap | hap
    · have := hs.wellFormed.nonempty u hn.object.mem
      simp only [Span.stop] at hap
      omega
    · have := f.words_pos s.heap.settings.padding
      have := Memory.words_le_footprint f s.heap.settings.padding
      simp only [Span.stop] at hap
      omega
  have hnew := hp.named hs
  refine hr.stays (hp.moves hs (.inl ⟨rfl, rfl⟩)) hp.table ?_ hp.roots
    (fun b hb ↦ (hp.denotes hs hb.denotes).resolve) (fun y d hy ↦ ?_) (fun y z d hy hz ↦ ?_)
    (fun y d hy ↦ ?_) fun y d hy ↦ ?_
  · rw [Heap.epochs, Heap.epochs, hp.statistics]
  · rw [if_neg (Nat.ne_of_lt (hlt y d hy)), hy]
  · split at hy <;> split at hz
    · next h₁ h₂ => rw [h₁, h₂]
    · next h₁ h₂ =>
      cases hy
      exact absurd rfl (hne z _ hz)
    · next h₁ h₂ =>
      cases hz
      exact absurd rfl (hne y _ hy)
    · exact hr.injective y z d hy hz
  · split at hy
    · next h₁ =>
      cases hy
      subst h₁
      refine ⟨_, _, List.getElem?_concat_length, ?_, view_placed hs hp, ?_⟩
      · exact Memory.tagBits_of_form? hnew.object.form?
      · simp only [Contents.map_blank]
    · next h₁ =>
      obtain ⟨o, c, ho, htag, hc, hmap⟩ := hr.object y d hy
      obtain ⟨u, g, hn, rfl⟩ := hr.named hy
      refine ⟨o, c, ?_, ?_, ?_, ?_⟩
      · rw [List.getElem?_append_left (hlt y _ hy), ho]
      · rw [← htag, Memory.header, Memory.header, hp.read_start hs hn.object.mem]
      · rw [hp.view hs hn.object hn.notBlock, hc]
      · rw [← hmap]
        apply Contents.map_congr
        intro z hz
        obtain ⟨e, -, he⟩ := located_of_mem hmap hz
        rw [if_neg (Nat.ne_of_lt (hlt z e he))]
  · split at hy
    · cases hy
      exact .inr ⟨hnew.valid, hnew.resolve⟩
    · exact .inl hy

/-! ### When references change what they denote -/

private theorem lookup_map {κ ρ σ : Type} [BEq κ] (φ : ρ → σ) (xs : List (κ × ρ)) (k : κ) :
    (xs.map fun (k, v) ↦ (k, φ v)).lookup k = (xs.lookup k).map φ := by
  induction xs with
  | nil => rfl
  | cons e xs ih =>
    obtain ⟨k', v⟩ := e
    simp only [List.map_cons, List.lookup_cons, ih]
    split <;> rfl

/-- Redirecting an object renames all references to it, and the object itself can no longer be
named. -/
theorem Related.redirected (hr : Related loc s l t) (hred : s.heap.Redirected l sp u h')
    (hx : loc x = some sp.start) (hy : loc y = some u.start) :
    Related (fun z ↦ if z = x then none else loc z) { s with heap := h' } l
      (t.rename fun z ↦ if z = x then y else z) := by
  have hs := hr.sound.heap
  obtain ⟨f, hf, hfb⟩ := hred.object
  obtain ⟨g, hg, hgb⟩ := hred.target
  have hyx : y ≠ x := by
    intro he
    rw [he, hx] at hy
    exact hred.distinct (hs.wellFormed.eq_of_start hf.mem hg.mem (Option.some.inj hy))
  have hstart : ∀ z d, loc z = some d → z ≠ x → d ≠ sp.start := by
    intro z d hz hzx he
    exact hzx (hr.injective z x d hz (by rw [hx, he]))
  -- A name and the place that it stands for are redirected in the same way.
  have hkey : ∀ z d, loc z = some d → (if (if z = x then y else z) = x then none
      else loc (if z = x then y else z)) = some (if d = sp.start then u.start else d) := by
    intro z d hz
    by_cases hzx : z = x
    · rw [hzx, hx] at hz
      rw [if_pos hzx, if_neg hyx, hy, if_pos (Option.some.inj hz).symm]
    · rw [if_neg hzx, if_neg hzx, hz, if_neg (hstart z d hz hzx)]
  have hres := fun a (ha : s.heap.Valid l a) ↦ hred.resolve hs ha
  have hep : h'.epochs = s.heap.epochs := by
    rw [Heap.epochs, Heap.epochs, hred.heap]
    rfl
  have hof : ∀ z d, (if z = x then none else loc z) = some d → z ≠ x ∧ loc z = some d := by
    intro z d hz
    by_cases hzx : z = x
    · rw [if_pos hzx] at hz
      cases hz
    · rw [if_neg hzx] at hz
      exact ⟨hzx, hz⟩
  constructor
  · constructor
    case table => exact hred.table.trans hr.table
    case injective =>
      intro z z' d hz hz'
      exact hr.injective z z' d (hof z d hz).2 (hof z' d hz').2
    case object =>
      intro z d hz
      obtain ⟨hzx, hz⟩ := hof z d hz
      obtain ⟨o, c, ho, htag, hc, hmap⟩ := hr.object z d hz
      obtain ⟨b, k, hn, rfl⟩ := hr.named hz
      have hne : b ≠ sp := fun he ↦ hstart z _ hz hzx (by rw [he])
      refine ⟨⟨o.tag, o.contents.map fun z ↦ if z = x then y else z⟩,
        c.map fun d ↦ if d = sp.start then u.start else d, ?_, ?_, ?_, ?_⟩
      · simp only [rename, List.getElem?_map, ho, Option.map_some]
      · rw [← htag, Memory.header, Memory.header, hred.memory,
          Memory.read_redirect_of_ne hs.wellFormed hf (hstart z _ hz hzx)]
      · rw [hred.view hs hn.object hn.notBlock hne, hc, Option.map_some]
      · exact contents_relocated hmap fun z e _ he ↦ hkey z e he
    case stack =>
      simp only [rename, RootStack.toList_mark, hred.roots]
      apply list_relocated hr.stack
      intro z a ha hz
      rw [hkey z _ hz, hres a (hs.roots a ha)]
    case registers =>
      intro name value epochs hl hfresh
      rw [hep] at hfresh
      obtain ⟨v, hv, hmeans⟩ := hr.registers name value epochs hl hfresh
      refine ⟨v.map fun z ↦ if z = x then y else z, ?_, ?_⟩
      · simp only [rename, lookup_map, hv, Option.map_some]
      · apply hmeans.relocated
        intro z a ha hz
        subst ha
        rw [hkey z _ hz, hres a (hr.valid_of_lookup hl (hfresh.resolve_left (by simp)))]
    case roots => exact hr.roots
  case sound => exact hr.sound.goes ⟨hred.moves hs, rfl⟩
  case located =>
    intro z d hz
    obtain ⟨hzx, hz⟩ := hof z d hz
    obtain ⟨hv, hd⟩ := hr.located z d hz
    refine ⟨hred.valid_of_valid hs hv, ?_⟩
    rw [hres d hv, hd, if_neg (hstart z d hz hzx)]

open Classical in
/-- A collection moves the objects that the roots reach. All others can no longer be named. -/
theorem Related.moved {φ : Nat → Nat} (hr : Related loc s l t) (hm : s.heap.Moves l h' l')
    (hg : Heap.SameGraph φ s.heap h') (hlt : s.heap.epochs < h'.epochs) :
    Related (fun z ↦ (loc z).bind fun d ↦ if s.heap.Live d then some (φ d) else none)
      { s with heap := h' } l' t := by
  have hkey : ∀ z d, loc z = some d → s.heap.Live d →
      ((loc z).bind fun d ↦ if s.heap.Live d then some (φ d) else none) = some (φ d) := by
    intro z d hz hd
    rw [hz, Option.bind_some, if_pos hd]
  have hof : ∀ z d', ((loc z).bind fun d ↦ if s.heap.Live d then some (φ d) else none) = some d' →
      ∃ d, loc z = some d ∧ s.heap.Live d ∧ φ d = d' := by
    intro z d' hz
    obtain ⟨d, hd, he⟩ := Option.bind_eq_some_iff.mp hz
    split at he
    · next hl => exact ⟨d, hd, hl, Option.some.inj he⟩
    · cases he
  constructor
  · constructor
    case table => exact hg.table.trans hr.table
    case injective =>
      intro z z' d' hz hz'
      obtain ⟨d, hd, hdl, rfl⟩ := hof z d' hz
      obtain ⟨e, he, hel, heq⟩ := hof z' _ hz'
      rw [← hg.injective e d hel hdl heq] at hd
      exact hr.injective z z' e hd he
    case object =>
      intro z d' hz
      obtain ⟨d, hd, hdl, rfl⟩ := hof z d' hz
      obtain ⟨o, c, ho, htag, hc, hmap⟩ := hr.object z d hd
      refine ⟨o, c.map φ, ho, by rw [hg.tag d hdl, htag],
        by rw [hg.view d hdl, hc, Option.map_some], ?_⟩
      rw [← Contents.map_id o.contents]
      exact contents_relocated hmap fun x e he hx ↦ hkey x e hx (.field hdl hc he)
    case stack =>
      have hroots := congrArg (·.map some) hg.roots
      simp only [List.map_map] at hroots
      refine Eq.trans ?_ hroots.symm
      rw [← List.map_id t.stack.toList]
      exact list_relocated hr.stack fun x a ha hx ↦ hkey x _ hx (.root ha)
    case registers =>
      intro name value epochs hl hfresh
      -- A collection makes every reference in a register stale.
      have hnone : value = none := by
        rcases hfresh with h | h
        · exact h
        · have hpast := hr.sound.past _ (Mutator.mem_of_lookup hl)
          simp only at hpast h
          omega
      subst hnone
      obtain ⟨v, hv, hmeans⟩ := hr.registers name none epochs hl (.inl rfl)
      refine ⟨v, hv, ?_⟩
      cases v with
      | none => rfl
      | some z => cases hmeans
    case roots => exact hr.roots
  case sound => exact hr.sound.goes ⟨hm, rfl⟩
  case located =>
    intro z d' hz
    obtain ⟨d, -, hdl, rfl⟩ := hof z d' hz
    obtain ⟨sp, f, hf, he, hfb⟩ := (hg.live hdl).object hm.sound
    rw [← he]
    exact ⟨(hf.denotes hfb).valid, (hf.denotes hfb).resolve⟩

/-- The root stack may be changed on both sides. -/
theorem Related.rerooted {stack : RootStack Nat} (roots : Array (Option Root))
    (hr : Related loc s l t) (hre : s.heap.Rerooted l h')
    (hst : stack.toList.map loc =
      h'.roots.toList.map fun a ↦ some (s.heap.memory.resolve a)) :
    Related loc ⟨h', s.registers, roots⟩ l { t with stack, roots } := by
  have hm := (Heap.Moves.refl hr.sound.heap).rerooted hre
  have hsound : Session.Sound ⟨h', s.registers, roots⟩ l := hr.sound.goes ⟨hm, rfl⟩
  obtain ⟨he, -⟩ := hre
  have hmem : h'.memory = s.heap.memory := by rw [he]
  have htab : h'.table = s.heap.table := by rw [he]
  have hep : h'.epochs = s.heap.epochs := by rw [he, Heap.epochs, Heap.epochs]
  have hvalid : ∀ d, s.heap.Valid l d → h'.Valid l d := hm.valid hep
  refine ⟨⟨htab.trans hr.table, hr.injective, ?_, ?_, ?_, rfl⟩, hsound, ?_⟩
  · simp only [hmem, htab]
    exact hr.object
  · simp only [hmem]
    exact hst
  · simp only [hep, Means, hmem]
    exact hr.registers
  · intro z d hz
    obtain ⟨hv, hd⟩ := hr.located z d hz
    exact ⟨hvalid d hv, by simp only [hmem, hd]⟩

/-! ### Registers -/

/-- What is kept under one name is not found under another. -/
theorem lookup_keep {ρ : Type} {name k : String} (hk : k ≠ name) (x : ρ) (xs : List (String × ρ)) :
    ((name, x) :: xs.filter (·.1 ≠ name)).lookup k = xs.lookup k := by
  have hne : (k == name) = false := by simpa using hk
  rw [List.lookup_cons, hne]
  induction xs with
  | nil => rfl
  | cons e xs ih =>
    obtain ⟨n, w⟩ := e
    by_cases hn : n = name
    · rw [List.filter_cons_of_neg (by simp [hn]), List.lookup_cons, hn, hne]
      exact ih
    · rw [List.filter_cons_of_pos (by simp [hn]), List.lookup_cons, List.lookup_cons]
      cases k == n with
      | true => rfl
      | false => exact ih

/-- A reference may be kept in a register on both sides. -/
theorem Related.keep {name : String} (hr : Related loc s l t)
    (hv : ∀ a, value = some a → s.heap.Valid l a)
    (hm : Means loc s.heap v value) :
    Related loc
      { s with
        registers := (name, ⟨value, s.heap.statistics.minor⟩) ::
          s.registers.filter (·.1 ≠ name) } l (t.keep name v) := by
  refine ⟨⟨hr.table, hr.injective, hr.object, hr.stack, fun k value' epochs hl hfresh ↦ ?_,
    hr.roots⟩, hr.sound.keep hv, hr.located⟩
  by_cases hk : k = name
  · subst hk
    simp only [List.lookup_cons_self, Option.some.injEq, Register.mk.injEq] at hl
    obtain ⟨rfl, rfl⟩ := hl
    exact ⟨v, List.lookup_cons_self, hm⟩
  · rw [lookup_keep hk] at hl
    obtain ⟨v', hv', hm'⟩ := hr.registers k value' epochs hl hfresh
    refine ⟨v', ?_, hm'⟩
    rw [Ideal.keep, lookup_keep hk, hv']

end Tenure.Ideal
