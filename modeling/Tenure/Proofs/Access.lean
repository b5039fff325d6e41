import Tenure.Proofs.Mutation
import Tenure.Proofs.Outcome

/-!
# Accesses

What the operations of a program on single objects do to a sound heap. A read changes nothing and
tells a part of the view of the object; a write that is not refused changes one part; one that is
refused changes nothing. Main statements: one rule for each operation.
-/

namespace Tenure.Heap

variable {h h' : Heap} {l : Census} {s t : Span} {f g : Form} {a b i target : Nat} {w : Word}
  {v : Option Nat} {c : Contents Nat} {α : Type}

/-- A reference to `a` denotes the object of span `s` and form `f`, which a program can name. -/
structure Named (h : Heap) (l : Census) (a : Nat) (s : Span) (f : Form) : Prop where
  object : h.Object l s f
  notBlock : ¬ f.IsBlock
  resolve : h.memory.resolve a = s.start

/-- A valid reference names an object. -/
theorem Valid.named (hv : h.Valid l a) : ∃ s f, h.Named l a s f := by
  obtain ⟨-, -, s, f, hf, he, hb⟩ := hv.denotes
  exact ⟨s, f, hf, hb, he.symm⟩

/-- The object itself is named by its address. -/
theorem Named.self (hn : h.Named l a s f) : h.Named l s.start s f :=
  ⟨hn.object, hn.notBlock, Memory.resolve_of_hop?_eq_none hn.object.hop?⟩

/-- An object that is named may be referred to by where it starts. -/
theorem Named.valid (hn : h.Named l a s f) : h.Valid l s.start :=
  (hn.object.denotes hn.notBlock).valid

/-- What a valid reference resolves to is valid. -/
theorem Valid.resolved (hv : h.Valid l a) : h.Valid l (h.memory.resolve a) := by
  obtain ⟨s, f, hn⟩ := hv.named
  rw [hn.resolve]
  exact hn.valid

/-- What a valid reference resolves to is direct. -/
theorem Valid.resolve_resolve (hv : h.Valid l a) :
    h.memory.resolve (h.memory.resolve a) = h.memory.resolve a := by
  obtain ⟨s, f, hn⟩ := hv.named
  rw [hn.resolve, hn.self.resolve]

/-! ### Parts of a view -/

section View

variable (hn : h.Named l a s f) (hc : h.memory.view h.table s.start = some c)
include hn hc

/-- The contents of a named object are read off its cells. -/
theorem Named.view_eq : c = {
    prims := (List.range f.type.prims).map fun i ↦ h.memory.read (f.cell h.memory s.start (.prim i))
    ptrs := (List.range f.type.ptrs).map fun i ↦
      h.memory.denoted? (f.cell h.memory s.start (.ptr i))
    units := match f.type.units with
      | .words => .words ((List.range f.size).map fun i ↦
          h.memory.read (f.cell h.memory s.start (.unit i)))
      | .refs => .refs ((List.range f.size).map fun i ↦
          h.memory.denoted? (f.cell h.memory s.start (.unit i))) } := by
  rw [Memory.view_of_form? hn.object.form? hn.notBlock] at hc
  exact (Option.some.inj hc).symm

private theorem Named.prims_eq (hi : i < f.type.prims) :
    c.prims[i]? = some (h.memory.read (f.cell h.memory s.start (.prim i))) := by
  rw [hn.view_eq hc]
  simp only [List.getElem?_map, List.getElem?_range hi, Option.map_some]

private theorem Named.ptrs_eq (hi : i < f.type.ptrs) :
    c.ptrs[i]? = some (h.memory.denoted? (f.cell h.memory s.start (.ptr i))) := by
  rw [hn.view_eq hc]
  simp only [List.getElem?_map, List.getElem?_range hi, Option.map_some]

/-- Units that are words show what their cells hold. -/
theorem Named.words_eq (hk : f.type.units = .words) : ∃ values, c.units = .words values ∧
    values.length = f.size ∧
    ∀ i < f.size, values[i]? = some (h.memory.read (f.cell h.memory s.start (.unit i))) := by
  rw [hn.view_eq hc, hk]
  refine ⟨_, rfl, by simp, fun i hi ↦ ?_⟩
  rw [List.getElem?_map, List.getElem?_range hi, Option.map_some]

/-- Units that are references show what their cells denote. -/
theorem Named.refs_eq (hk : f.type.units = .refs) : ∃ values, c.units = .refs values ∧
    values.length = f.size ∧
    ∀ i < f.size, values[i]? = some (h.memory.denoted? (f.cell h.memory s.start (.unit i))) := by
  rw [hn.view_eq hc, hk]
  refine ⟨_, rfl, by simp, fun i hi ↦ ?_⟩
  rw [List.getElem?_map, List.getElem?_range hi, Option.map_some]

end View

/-! ### The steps of an access -/

section Steps

variable {good : α → Heap → Prop} {bad : Fault → Heap → Prop}

/-- An access by name gets to the object and its type. -/
theorem direct_eq (hn : h.Named l a s f) : direct a h = .ok (s.start, f.type) h := by
  have hf := hn.object.form?
  simp only [direct, attempt, hn.resolve, Memory.tag_of_form? hf, Memory.lookup_of_form? hf, bind,
    Except.bind, pure, Except.pure]

/-- An access first finds the object. -/
theorem ends_direct_bind {k : Nat × TypeInfo → HeapM α} (hn : h.Named l a s f) :
    Ends (direct a >>= k) h good bad ↔ Ends (k (s.start, f.type)) h good bad := by
  rw [ends_bind_iff, ends_iff_of_eq_ok (direct_eq hn)]

/-- An object of an immutable type may be written or not, and nothing changes here. -/
theorem ends_needWritable {object : Nat} {info : TypeInfo} :
    Ends (needWritable object info) h (fun _ h' ↦ h' = h) (fun _ h' ↦ h' = h) := by
  rw [needWritable, ends_ask_bind]
  split
  · exact ends_throw_iff.mpr rfl
  · exact ends_pure_iff.mpr rfl

/-- The address of a unit, if there is one of that number. -/
theorem unitAddr_eq (hn : h.Named l a s f) : h.memory.unitAddr h.table a i =
    if i < f.size then .ok (f.cell h.memory s.start (.unit i))
    else .error (.violation (.unitOutOfRange i f.size)) :=
  Memory.unitAddr_of_form? hn.resolve hn.object.form? i

private theorem ends_unitOf (hn : h.Named l a s f) :
    Ends (unitOf a i) h
      (fun p h' ↦ h' = h ∧ i < f.size ∧ p = f.cell h.memory s.start (.unit i))
      (fun _ h' ↦ h' = h) := by
  simp only [Ends, unitOf, unitAddr_eq hn]
  by_cases hi : i < f.size
  · rw [if_pos hi]
    exact ⟨rfl, hi, rfl⟩
  · rw [if_neg hi]
    rfl

/-- What is stored is a reference to a direct object. -/
theorem ends_resolved_bind {k : Option Nat → HeapM α} :
    Ends (resolved v >>= k) h good bad ↔ Ends (k (v.map h.memory.resolve)) h good bad := by
  rw [resolved, ends_ask_bind]

/-- A write ends with the write barrier. -/
theorem ends_write_barrier {p object : Nat} {value : Option Nat} {good : Unit → Heap → Prop} :
    Ends (do writeWord p w; writeBarrier object value) h good bad ↔
      good () (h.barred (h.memory.write p w) object value) := by
  rw [writeWord, ends_changeMemory_bind, ends_iff_of_eq_ok (writeBarrier_eq h _ object value)]

end Steps

/-! ### Reading -/

/-- A plain field that is read is the one that the contents show. -/
theorem ends_prim (hn : h.Named l a s f) :
    Ends (prim a i) h
      (fun w h' ↦ h' = h ∧ ∀ c, h.memory.view h.table s.start = some c → c.prims[i]? = some w)
      (fun _ h' ↦ h' = h) := by
  rw [prim, ends_direct_bind hn]
  dsimp only
  split
  · exact ends_throw_iff.mpr rfl
  · next hle => exact ⟨rfl, fun c hc ↦ hn.prims_eq hc (by omega)⟩

/-- What a part that holds references holds is null or valid, and the view tells what it denotes. -/
theorem Sound.reference (hs : h.Sound l) (hn : h.Named l a s f) {part : Part}
    (hr : f.Refers part) :
    (∀ b, Word.toRef? (h.memory.read (f.cell h.memory s.start part)) = some b → h.Valid l b) ∧
    h.memory.denoted? (f.cell h.memory s.start part) =
      (Word.toRef? (h.memory.read (f.cell h.memory s.start part))).map h.memory.resolve := by
  refine ⟨fun b hb ↦ ?_, rfl⟩
  rcases hs.wellFormed.reference s f hn.object part hr with hz | ⟨d, hd, hv⟩
  · rw [hz, Word.toRef?_null] at hb
    cases hb
  · rw [hd, hs.wellFormed.toRef?_ofAddr hv.denotes.1] at hb
    cases hb
    exact hv

/-- A reference field that is read is valid, and leads to where the contents say. -/
theorem ends_ptr (hs : h.Sound l) (hn : h.Named l a s f) :
    Ends (ptr a i) h
      (fun v h' ↦ h' = h ∧ (∀ b, v = some b → h.Valid l b) ∧
        ∀ c, h.memory.view h.table s.start = some c →
          c.ptrs[i]? = some (v.map h.memory.resolve))
      (fun _ h' ↦ h' = h) := by
  rw [ptr, ends_direct_bind hn]
  dsimp only
  split
  · exact ends_throw_iff.mpr rfl
  · next hle =>
    rw [readWord, ends_ask_bind]
    obtain ⟨hv, hd⟩ := hs.reference hn (show f.Refers (.ptr i) from Nat.lt_of_not_le hle)
    exact ends_pure_iff.mpr ⟨rfl, hv, fun c hc ↦ by rw [hn.ptrs_eq hc (by omega), hd]; rfl⟩

/-- The number of units. -/
theorem ends_tailLength (hn : h.Named l a s f) :
    Ends (tailLength a) h (fun n h' ↦ h' = h ∧ n = f.size) (fun _ h' ↦ h' = h) := by
  rw [tailLength, ends_direct_bind hn]
  simp only [Ends, attempt, Memory.size_of_form? hn.object.form?, and_self]

/-- Asking for the kind of the units changes nothing. -/
theorem ends_unitKind_unchanged : Ends (unitKind a) h (fun _ h' ↦ h' = h) (fun _ h' ↦ h' = h) := by
  have hd : Ends (direct a) h (fun _ h' ↦ h' = h) (fun _ h' ↦ h' = h) := by
    unfold direct
    exact ends_attempt _ h
  exact hd.bind fun _ _ he ↦ ends_pure_iff.mpr he

/-- The kind of the units is that of the type. -/
theorem ends_unitKind (hn : h.Named l a s f) :
    Ends (unitKind a) h (fun k h' ↦ h' = h ∧ k = f.type.units) (fun _ h' ↦ h' = h) := by
  rw [unitKind, ends_direct_bind hn]
  exact ends_pure_iff.mpr ⟨rfl, rfl⟩

/-- A word of the tail is read within the tail only, and from its own cell. -/
theorem ends_tailWord (hn : h.Named l a s f) :
    Ends (tailWord a i) h
      (fun w h' ↦ h' = h ∧ i < f.size ∧ w = h.memory.read (f.cell h.memory s.start (.unit i)))
      (fun _ h' ↦ h' = h) := by
  rw [tailWord]
  apply (ends_unitOf hn).bind
  rintro p h' ⟨he, hi, hp⟩
  subst he hp
  exact ⟨rfl, hi, rfl⟩

/-- A reference of the tail that is read is valid, and leads to where the contents say. -/
theorem ends_tailPtr (hs : h.Sound l) (hn : h.Named l a s f) :
    Ends (tailPtr a i) h
      (fun v h' ↦ h' = h ∧ (∀ b, v = some b → h.Valid l b) ∧
        ∀ c, h.memory.view h.table s.start = some c → ∃ values, c.units = .refs values ∧
          values[i]? = some (v.map h.memory.resolve))
      (fun _ h' ↦ h' = h) := by
  rw [tailPtr, ends_direct_bind hn]
  dsimp only
  split
  · exact ends_throw_iff.mpr rfl
  · next hk =>
    have hk : f.type.units = .refs := by simpa using hk
    apply (ends_unitOf hn).bind
    rintro p h' ⟨he, hi, hp⟩
    subst he hp
    rw [readWord, ends_ask_bind]
    obtain ⟨hv, hd⟩ := hs.reference hn (show f.Refers (.unit i) from ⟨hi, hk⟩)
    refine ends_pure_iff.mpr ⟨rfl, hv, fun c hc ↦ ?_⟩
    obtain ⟨values, hu, -, hval⟩ := hn.refs_eq hc hk
    exact ⟨values, hu, by rw [hval i hi, hd]⟩

/-! ### Writing -/

/-- A plain field that is written stores the word in its cell. -/
theorem ends_setPrim (hn : h.Named l a s f) :
    Ends (setPrim a i w) h
      (fun _ h' ↦ h.Stored l s f (.prim i) w none h') (fun _ h' ↦ h' = h) := by
  rw [setPrim, ends_direct_bind hn]
  dsimp only
  split
  · exact ends_throw_iff.mpr rfl
  · next hle =>
    apply ends_needWritable.bind
    intro _ h' he
    subst he
    exact ⟨hn.object, hn.notBlock, show i < f.type.prims by omega, by simp, fun hr ↦ hr.elim,
      by simp, by simp [barred, Form.cell]⟩

/-- The stored reference is one to what the value denotes. -/
theorem valid_resolved (hv : ∀ b, v = some b → h.Valid l b) :
    ∀ d, v.map h.memory.resolve = some d → h.Valid l d := by
  intro d hd
  obtain ⟨b, hb, rfl⟩ := Option.map_eq_some_iff.mp hd
  exact (hv b hb).resolved

/-- A reference field that is written stores the reference to the object that is named. -/
theorem ends_setPtr (hn : h.Named l a s f) (hv : ∀ b, v = some b → h.Valid l b) :
    Ends (setPtr a i v) h
      (fun _ h' ↦ h.Stored l s f (.ptr i) (Word.ofRef? (v.map h.memory.resolve))
        (v.map h.memory.resolve) h')
      (fun _ h' ↦ h' = h) := by
  rw [setPtr, ends_direct_bind hn]
  dsimp only
  split
  · exact ends_throw_iff.mpr rfl
  · next hle =>
    apply ends_needWritable.bind
    intro _ h' he
    subst he
    rw [ends_resolved_bind, ends_write_barrier]
    exact ⟨hn.object, hn.notBlock, show i < f.type.ptrs by omega, by simp, fun _ ↦ rfl,
      valid_resolved hv, rfl⟩

/-- A word of the tail is written to its cell, if the units are words. -/
theorem ends_setTailWord (hn : h.Named l a s f) :
    Ends (setTailWord a i w) h
      (fun _ h' ↦ f.type.units = .words ∧ h.Stored l s f (.unit i) w none h')
      (fun _ h' ↦ h' = h) := by
  rw [setTailWord, ends_direct_bind hn]
  dsimp only
  split
  · exact ends_throw_iff.mpr rfl
  · next hk =>
    have hk : f.type.units = .words := by simpa using hk
    apply ends_needWritable.bind
    intro _ h' he
    subst he
    apply (ends_unitOf hn.self).bind
    rintro p h' ⟨he, hi, hp⟩
    subst he hp
    refine ⟨hk, hn.object, hn.notBlock, hi, by simp, fun hr ↦ ?_, by simp, by simp [barred]⟩
    have hku := hr.2
    rw [hk] at hku
    cases hku

/-- A reference of the tail is written to its cell, if the units are references. -/
theorem ends_setTailPtr (hn : h.Named l a s f) (hv : ∀ b, v = some b → h.Valid l b) :
    Ends (setTailPtr a i v) h
      (fun _ h' ↦ f.type.units = .refs ∧
        h.Stored l s f (.unit i) (Word.ofRef? (v.map h.memory.resolve))
          (v.map h.memory.resolve) h')
      (fun _ h' ↦ h' = h) := by
  rw [setTailPtr, ends_direct_bind hn]
  dsimp only
  split
  · exact ends_throw_iff.mpr rfl
  · next hk =>
    have hk : f.type.units = .refs := by simpa using hk
    apply ends_needWritable.bind
    intro _ h' he
    subst he
    rw [ends_resolved_bind]
    apply (ends_unitOf hn.self).bind
    rintro p h' ⟨he, hi, hp⟩
    subst he hp
    rw [ends_write_barrier]
    exact ⟨hk, hn.object, hn.notBlock, hi, by simp, fun _ ↦ rfl, valid_resolved hv, rfl⟩

/-- A redirection is refused if both references denote one object. -/
theorem ends_redirect (hn : h.Named l a s f) (hg : h.Named l target t g) :
    Ends (redirect a target) h (fun _ h' ↦ h.Redirected l s t h')
      (fun e h' ↦ h' = h ∧ e = .violation .selfRedirect ∧ s.start = t.start) := by
  rw [redirect, ends_ask_bind, ends_ask_bind, hn.resolve, hg.resolve]
  dsimp only
  split
  · next he => exact ends_throw_iff.mpr ⟨rfl, rfl, he⟩
  · next hne =>
    rw [ends_changeMemory_bind, ends_iff_of_eq_ok (writeBarrier_eq h _ _ _)]
    exact ⟨⟨f, hn.object, hn.notBlock⟩, ⟨g, hg.object, hg.notBlock⟩,
      fun he ↦ hne (by rw [he]), rfl⟩

/-! ### Looking at an object -/

/-- A named object passes the check, and is found where it starts. -/
theorem ends_validate (hn : h.Named l a s f) :
    Ends (validate a) h (fun d h' ↦ h' = h ∧ d = s.start) (fun _ h' ↦ h' = h) := by
  simp only [Ends, validate, Memory.check_of_form? hn.resolve hn.object.form?, escalating, attempt,
    and_self]

/-- A description changes nothing. -/
theorem ends_describe : Ends (describe a) h (fun _ h' ↦ h' = h) (fun _ h' ↦ h' = h) := by
  unfold describe
  exact ends_attempt _ h

end Tenure.Heap
