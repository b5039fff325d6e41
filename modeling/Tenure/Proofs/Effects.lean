import Tenure.Proofs.Session

/-!
# What an instruction does to the heap

An instruction edits the heap, or it allocates, or it collects. An edit leaves all objects where
they are and changes one of them at most. An allocation places an object, after a collection if
need be, and an instruction that fails does one of these as well unless the heap is exhausted. Main
statement: `ends_run_effect`, from which every invariant of a run can be derived.
-/

namespace Tenure

open Mutator (Instr)

namespace Heap

/-- The operation changes nothing, whether it fails or not. -/
def Reads {α : Type} (op : HeapM α) : Prop :=
  ∀ h, Ends op h (fun _ h' ↦ h' = h) (fun _ h' ↦ h' = h)

/-- An object of this type may be written: it is mutable or still young. -/
def Writable (h : Heap) (object : Nat) (info : TypeInfo) : Prop :=
  info.isMutable = true ∨ h.nursery.region.contains object = true

/-- Nothing was allocated or collected: at most the root stack was changed, a part of an object was
written that may be, or an object was redirected. -/
inductive Edits (h : Heap) (l : Census) (h' : Heap) : Prop
  | rerooted : Rerooted h l h' → Edits h l h'
  | stored {s : Span} {f : Form} {part : Part} {w : Word} {v : Option Nat} :
    Stored h l s f part w v h' → h.Writable s.start f.type → Edits h l h'
  | redirected {s t : Span} : Redirected h l s t h' → Edits h l h'

/-- An allocation goes on with the heap as it is or after a collection. -/
def Supplied (h h₁ : Heap) : Prop := h₁ = h ∨ collect h = .ok () h₁

/-- The tag has a type, but there are so many types that no header can hold it. -/
def Unencodable (h : Heap) (tag : Nat) (e : Fault) : Prop :=
  e = .fatal (.encodingMisuse .tagTooLarge) ∧ maxTag < tag ∧ h.table.contains tag = true

/-- The heap with `n` more roots for an object. -/
def holding (h : Heap) (a n : Nat) : Heap :=
  { h with roots := ⟨(h.roots.toList ++ List.replicate n a).toArray⟩ }

/-- The heap with the lowest `n` entries of the root stack. -/
def cutTo (h : Heap) (n : Nat) : Heap := { h with roots := h.roots.truncate n }

/-- An object was placed, or at least room was made for it. Some further roots may have been there
while this was done. -/
def Allocates (h : Heap) (l : Census) (h' : Heap) : Prop :=
  ∃ a n h₁ h₂, Rerooted h l (h.holding a n) ∧ Supplied (h.holding a n) h₁ ∧
    (h₂ = h₁ ∨ ∃ f b, Placed h₁ f b h₂) ∧ h' = h₂.cutTo h.roots.size

/-- A collection before an allocation has found the heap exhausted. -/
def FailsToSupply (h : Heap) (l : Census) (e : Fault) (h' : Heap) : Prop :=
  ∃ a n h₁, Rerooted h l (h.holding a n) ∧ collect (h.holding a n) = .error e h₁ ∧
    h' = h₁.cutTo h.roots.size

/-- What an instruction does to the heap, unless it finds the heap exhausted. -/
def Effect (h : Heap) (l : Census) (h' : Heap) : Instr → Prop
  | .allocate .. | .allocateUnder .. => Allocates h l h'
  | .minorCollection => collect h = .ok () h'
  | .majorCollection => majorCollection h = .ok () h'
  | _ => Edits h l h'

/-- How an instruction finds the heap exhausted. -/
def Overruns (h : Heap) (l : Census) (e : Fault) (h' : Heap) : Instr → Prop
  | .allocate .. | .allocateUnder .. => FailsToSupply h l e h'
  | .minorCollection => collect h = .error e h'
  | .majorCollection => majorCollection h = .error e h'
  | _ => False

variable {h h' h₁ h₂ : Heap} {l l₁ : Census} {s t : Span} {f g : Form} {part : Part} {w : Word}
  {v : Option Nat} {a b i m n object tag size : Nat} {tail : TailLayout} {α β : Type}
  {op : HeapM α} {k : α → HeapM β} {e : Fault}

/-! ### Reading -/

private theorem Reads.bind (hx : Reads op) (hk : ∀ b, Reads (k b)) : Reads (op >>= k) := fun h ↦
  (hx h).bind fun b h' he ↦ by
    subst he
    exact hk b h'

private theorem Reads.guard {c : Prop} [Decidable c] {violation : Violation} (hx : Reads op) :
    Reads (if c then throw (.violation violation) else op) := by
  split
  · exact fun _ ↦ rfl
  · exact hx

/-- To look at the heap is to read it. -/
theorem reads_ask (f : Heap → α) : Reads (ask f) := fun _ ↦ rfl

private theorem reads_pure (b : α) : Reads (pure b) := fun _ ↦ rfl

private theorem reads_attempt (look : Heap → Except Fault α) : Reads fun h ↦ attempt (look h) h :=
  fun h ↦ ends_attempt look h

/-- To find the object behind a reference is to read the heap. -/
theorem reads_direct : Reads (direct a) := reads_attempt _

/-- To find a unit of a tail is to read the heap. -/
theorem reads_unitOf : Reads (unitOf object i) := reads_attempt _

/-- To check that an object may be written is to read the heap. -/
theorem reads_needWritable {info : TypeInfo} : Reads (needWritable object info) :=
  fun _ ↦ ends_needWritable

/-- A plain field is read without a change to the heap. -/
theorem reads_prim : Reads (prim a i) := reads_direct.bind fun _ ↦ .guard (reads_ask _)

/-- A reference field is read without a change to the heap. -/
theorem reads_ptr : Reads (ptr a i) :=
  reads_direct.bind fun _ ↦ .guard ((reads_ask _).bind fun _ ↦ reads_pure _)

private theorem reads_tailLength : Reads (tailLength a) := reads_direct.bind fun _ ↦ reads_attempt _

/-- A word of a tail is read without a change to the heap. -/
theorem reads_tailWord : Reads (tailWord a i) := reads_unitOf.bind fun _ ↦ reads_ask _

/-- A reference of a tail is read without a change to the heap. -/
theorem reads_tailPtr : Reads (tailPtr a i) :=
  reads_direct.bind fun _ ↦ .guard (reads_unitOf.bind fun _ ↦ (reads_ask _).bind fun _ ↦
    reads_pure _)

private theorem reads_validate : Reads (validate a) := reads_attempt _

private theorem reads_describe : Reads (describe a) := reads_attempt _

private theorem reads_unitKind : Reads (unitKind a) := reads_direct.bind fun _ ↦ reads_pure _

/-! ### Edits -/

private theorem Edits.refl (hs : h.Sound l) : Edits h l h := .rerooted (.refl hs)

/-- A write gets through if the object may be written. -/
theorem ends_needWritable_writable {info : TypeInfo} :
    Ends (needWritable object info) h (fun _ h' ↦ h' = h ∧ h.Writable object info)
      (fun _ _ ↦ True) := by
  rw [needWritable, ends_ask_bind]
  split
  · exact ends_throw_iff.mpr trivial
  · next hw =>
    refine ends_pure_iff.mpr ⟨rfl, ?_⟩
    simp only [Bool.and_eq_true, Bool.not_eq_true', not_and, Bool.not_eq_false] at hw
    cases hm : info.isMutable with
    | true => exact .inl hm
    | false => exact .inr (hw hm)

private theorem ends_checked {info : TypeInfo} {c : Prop} [Decidable c] {violation : Violation}
    {k : Unit → HeapM α} :
    Ends (if c then throw (.violation violation) else needWritable object info >>= k) h
      (fun _ _ ↦ h.Writable object info) (fun _ _ ↦ True) := by
  split
  · exact ends_throw_iff.mpr trivial
  · refine ends_needWritable_writable.bind fun _ h' ⟨_, hw⟩ ↦ ?_
    unfold Ends
    split
    · exact hw
    · trivial

section Writes

variable (hn : h.Named l a s f)
include hn

private theorem edits_setPrim :
    Ends (setPrim a i w) h (fun _ h' ↦ Edits h l h') (fun _ h' ↦ h' = h) :=
  ((ends_setPrim hn).and ((ends_direct_bind hn).mpr ends_checked)).mono
    (fun _ _ ⟨hst, hw⟩ ↦ .stored hst hw) fun _ _ he ↦ he.1

private theorem edits_setPtr (hv : ∀ b, v = some b → h.Valid l b) :
    Ends (setPtr a i v) h (fun _ h' ↦ Edits h l h') (fun _ h' ↦ h' = h) :=
  ((ends_setPtr hn hv).and ((ends_direct_bind hn).mpr ends_checked)).mono
    (fun _ _ ⟨hst, hw⟩ ↦ .stored hst hw) fun _ _ he ↦ he.1

private theorem edits_setTailWord :
    Ends (setTailWord a i w) h (fun _ h' ↦ Edits h l h') (fun _ h' ↦ h' = h) :=
  ((ends_setTailWord hn).and ((ends_direct_bind hn).mpr ends_checked)).mono
    (fun _ _ ⟨⟨_, hst⟩, hw⟩ ↦ .stored hst hw) fun _ _ he ↦ he.1

private theorem edits_setTailPtr (hv : ∀ b, v = some b → h.Valid l b) :
    Ends (setTailPtr a i v) h (fun _ h' ↦ Edits h l h') (fun _ h' ↦ h' = h) :=
  ((ends_setTailPtr hn hv).and ((ends_direct_bind hn).mpr ends_checked)).mono
    (fun _ _ ⟨⟨_, hst⟩, hw⟩ ↦ .stored hst hw) fun _ _ he ↦ he.1

end Writes

/-! ### Allocations -/

/-- An object that fits the nursery as a whole is placed, after a collection if need be. It is not
if the heap is exhausted or no header can hold its tag. -/
theorem supplied_placeCollecting (hs : h.Sound l) (hb : ¬ f.IsBlock)
    (ht : h.table.get? f.tag = some f.type) (hz : f.size ≤ maxTailSize)
    (hfit : (f.footprint h.settings.padding).words ≤ h.nursery.region.capacity) :
    Ends (placeCollecting (f.footprint h.settings.padding) 1) h
      (fun a h' ↦ ∃ h₁, Supplied h h₁ ∧ Placed h₁ f a h')
      (fun e h' ↦ h' = h ∨ collect h = .error e h' ∨
        collect h = .ok () h' ∧ h.Unencodable f.tag e) := by
  have hcontains : h.table.contains f.tag = true := by
    rw [← TypeTable.isSome_get?, ht, Option.isSome_some]
  rw [placeCollecting]
  refine ((ends_tryPlace hs hb ht hz).mono (fun _ _ hg ↦ hg)
    fun e h' hg ↦ .inl hg.1).bind fun r h₀ hr ↦ ?_
  cases r with
  | some a => exact ends_pure_iff.mpr ⟨h, .inl rfl, hr⟩
  | none =>
    obtain ⟨rfl, -⟩ := hr
    cases hcollect : collect h₀ with
    | error e h₁ =>
      rw [ends_bind_iff, Ends, hcollect]
      exact .inr (.inl rfl)
    | ok _ h₁ =>
      obtain ⟨⟨l₁, hc⟩, -, -⟩ := (ends_collect hs).of_eq_ok hcollect
      obtain ⟨φ, hg⟩ := hc.graph
      rw [ends_bind_iff, ends_iff_of_eq_ok hcollect, ← hg.settings, placeCollecting, ends_bind_iff]
      have hplace := ends_tryPlace hc.sound hb (by rw [hg.table, ht]) hz
      cases he : tryPlace (f.footprint h₁.settings.padding) h₁ with
      | error e h₂ =>
        obtain ⟨rfl, htag⟩ := hplace.of_eq_error he
        rw [Ends, he]
        exact .inr (.inr ⟨rfl, htag, (maxTag_lt_of_tryPlace hc.sound.epoch he).1, hcontains⟩)
      | ok r h₂ =>
        have hr := hplace.of_eq_ok he
        rw [ends_iff_of_eq_ok he]
        cases r with
        | some a => exact ends_pure_iff.mpr ⟨h₁, .inr hcollect, hr⟩
        | none =>
          exact absurd hr.2 (Nat.not_lt.mpr (hc.fits (hg.settings ▸ hfit)))

/-- An allocation places an object, after one collection at most, or it fails: at once, in that
collection, or at a tag that no header holds. -/
theorem supplied_allocateWith {tail : TailLayout} (hs : h.Sound l) :
    Ends (allocateWith tag size tail) h
      (fun a h' ↦ ∃ h₁ f, Supplied h h₁ ∧ Placed h₁ f a h')
      (fun e h' ↦ h' = h ∨ collect h = .error e h' ∨
        collect h = .ok () h' ∧ h.Unencodable tag e) := by
  rw [allocateWith, ends_ask_bind]
  cases hfp : h.table.footprint tag size tail h.settings.padding with
  | error e => exact .inl rfl
  | ok p =>
    obtain ⟨type, hn, hty, hz, rfl⟩ := TypeTable.footprint_eq_ok_iff.mp hfp
    rw [escalating, ends_bind_iff, ends_attempt_ok, ends_ask_bind]
    split
    · exact ends_throw_iff.mpr (.inl rfl)
    · next hle =>
      have hb : ¬ (⟨tag, size, tail, type⟩ : Form).IsBlock := hn
      refine (supplied_placeCollecting hs hb hty hz (words_le_capacity hle)).imp ?_
      rintro a h' ⟨h₁, hsup, hp⟩
      exact ⟨h₁, _, hsup, hp⟩

/-! ### Further roots -/

/-- The roots that are held stand on top of those that were there. -/
theorem toList_holding :
    (h.holding a n).roots.toList = h.roots.toList ++ List.replicate n a := rfl

private theorem size_holding : (h.holding a n).roots.size = h.roots.size + n := by
  rw [← RootStack.length_toList, ← RootStack.length_toList, toList_holding, List.length_append,
    List.length_replicate]

private theorem holding_zero : h.holding a 0 = h := by
  rw [holding, List.replicate_zero, List.append_nil, RootStack.toList]

private theorem cutTo_size : h.cutTo h.roots.size = h := by
  have he : h.roots.truncate h.roots.size = h.roots := by
    apply RootStack.ext_toList
    rw [RootStack.toList_truncate, ← RootStack.length_toList, List.take_length]
  rw [cutTo, he]

/-- More roots for an object that a program can name. -/
theorem rerooted_holding (hs : h.Sound l) (hv : h.Valid l a) :
    Rerooted h l (h.holding a n) := by
  refine (Rerooted.refl hs).set fun b hb ↦ ?_
  rw [RootStack.toList, List.mem_append] at hb
  rcases hb with hb | hb
  · exact .inl hb
  · exact .inr ((List.eq_of_mem_replicate hb).symm ▸ hv)

private theorem root_holding : root a (h.holding a n) =
    .ok ⟨h.roots.size + n⟩ (h.holding a (n + 1)) := by
  have hpush : (h.holding a n).roots.push a = (h.holding a (n + 1)).roots := by
    apply RootStack.ext_toList
    rw [RootStack.toList_push, toList_holding, toList_holding, List.replicate_succ',
      List.append_assoc]
  show EStateM.Result.ok _ _ = _
  rw [size_holding, hpush]
  rfl

private theorem mapM_root : (List.range n).mapM (fun _ ↦ root a) h =
    .ok ((List.range n).map fun i ↦ ⟨h.roots.size + i⟩) (h.holding a n) := by
  have hends : Ends ((List.range n).mapM fun _ ↦ root a) h
      (fun rs h' ↦ rs = (List.range n).map (fun i ↦ ⟨h.roots.size + i⟩) ∧ h' = h.holding a n)
      (fun _ _ ↦ False) := by
    refine (Ends.mapM (fun done rs h' ↦
      rs = (List.range done.length).map (fun i ↦ ⟨h.roots.size + i⟩) ∧
        h' = h.holding a done.length) ⟨rfl, holding_zero.symm⟩ ?_).imp ?_
    · rintro done rs _ rest _ - ⟨rfl, rfl⟩
      rw [ends_iff_of_eq_ok root_holding, List.length_append, List.length_singleton,
        List.range_succ, List.map_append, List.map_singleton]
      exact ⟨rfl, rfl⟩
    · rintro rs h' ⟨hrs, he⟩
      rw [List.length_range] at hrs he
      exact ⟨hrs, he⟩
  obtain ⟨rs, h', he, rfl, rfl⟩ := hends.exists_eq_ok
  exact he

private theorem releaseRoot_top (hsize : h.roots.size = n + 1) :
    releaseRoot ⟨n⟩ h = .ok () (h.cutTo n) := by
  have hrel : h.roots.release ⟨n⟩ = .ok (h.roots.truncate n) := by
    refine RootStack.release_eq_ok_iff.mpr ⟨?_, ?_⟩
    · rw [RootStack.top, hsize, if_neg (Nat.succ_ne_zero n), Nat.add_sub_cancel]
    · rw [RootStack.toList_truncate, List.dropLast_eq_take, RootStack.length_toList, hsize,
        Nat.add_sub_cancel]
  rw [releaseRoot, hrel]
  rfl

private theorem cutTo_cutTo (hmn : m ≤ n) : (h.cutTo n).cutTo m = h.cutTo m := by
  have he : (h.roots.truncate n).truncate m = h.roots.truncate m := by
    apply RootStack.ext_toList
    rw [RootStack.toList_truncate, RootStack.toList_truncate, RootStack.toList_truncate,
      List.take_take, Nat.min_eq_left hmn]
  simp only [cutTo, he]

private theorem size_cutTo (hn : n ≤ h.roots.size) : (h.cutTo n).roots.size = n := by
  rw [← RootStack.length_toList, cutTo, RootStack.toList_truncate, List.length_take,
    RootStack.length_toList, Nat.min_eq_left hn]

private theorem forM_releaseRoot (hsize : h.roots.size = m + n) :
    ((List.range n).map fun i ↦ (⟨m + i⟩ : Root)).reverse.forM releaseRoot h =
      .ok () (h.cutTo m) := by
  induction n generalizing h with
  | zero =>
    rw [Nat.add_zero] at hsize
    rw [← hsize, cutTo_size]
    rfl
  | succ n ih =>
    have htop : releaseRoot ⟨m + n⟩ h = .ok () (h.cutTo (m + n)) := releaseRoot_top hsize
    have hrest := ih (size_cutTo (h := h) (n := m + n) (by omega))
    rw [cutTo_cutTo (Nat.le_add_right m n)] at hrest
    rw [List.range_succ, List.map_append, List.map_singleton, List.reverse_append,
      List.reverse_singleton, List.singleton_append]
    show (releaseRoot ⟨m + n⟩ >>= fun _ ↦ List.forM _ releaseRoot) h = _
    simp only [bind, EStateM.bind, htop]
    exact hrest

private theorem unwind_range (hsize : h.roots.size = m + n) :
    h.roots.unwind ((List.range n).map fun i ↦ ⟨m + i⟩) = h.roots.truncate m := by
  have hmin : ∀ k, ((List.range k).map fun i ↦ (⟨m + i⟩ : Root)).foldl
      (fun depth r ↦ min depth r.depth) (m + n) = if k = 0 then m + n else m := by
    intro k
    induction k with
    | zero => rfl
    | succ k ih =>
      rw [List.range_succ, List.map_append, List.foldl_append, ih, if_neg (Nat.succ_ne_zero k)]
      simp only [List.map_singleton, List.foldl_cons, List.foldl_nil]
      split <;> omega
  apply RootStack.ext_toList
  rw [RootStack.toList_unwind, RootStack.toList_truncate, RootStack.length_toList, hsize, hmin]
  split
  · next hn => rw [hn, Nat.add_zero]
  · rfl

/-- Roots that are made around an operation are gone after it, whether it fails or not. -/
theorem ends_withRoots
    (hop : Ends op (h.holding a n) (fun _ h' ↦ h'.roots.size = h.roots.size + n)
      (fun _ h' ↦ h'.roots.size = h.roots.size + n)) :
    Ends (withRoots a n op) h
      (fun x h' ↦ ∃ h₂, op (h.holding a n) = .ok x h₂ ∧ h' = h₂.cutTo h.roots.size)
      (fun e h' ↦ ∃ h₂, op (h.holding a n) = .error e h₂ ∧ h' = h₂.cutTo h.roots.size) := by
  unfold Ends withRoots
  simp only [mapM_root]
  cases he : op (h.holding a n) with
  | error e h₂ =>
    simp only
    exact ⟨h₂, rfl, by rw [unwind_range (hop.of_eq_error he), cutTo]⟩
  | ok x h₂ =>
    simp only [bind, EStateM.bind, forM_releaseRoot (hop.of_eq_ok he)]
    exact ⟨h₂, rfl, rfl⟩

/-- A collection replaces the entries of the root stack one by one. -/
theorem Collected.size_roots (hc : Collected h l h₁ l₁) : h₁.roots.size = h.roots.size := by
  obtain ⟨φ, hg⟩ := hc.graph
  have hlen := congrArg List.length hg.roots
  simpa only [List.length_map, RootStack.length_toList] using hlen

private theorem ends_collect_size (hs : h.Sound l) (hroom : h.Headroom) :
    Ends collect h (fun _ h' ↦ h'.roots.size = h.roots.size)
      (fun e h' ↦ e.IsExhausted ∧ h'.roots.size = h.roots.size) := by
  refine (ends_collect hs).mono (fun _ _ ⟨⟨_, hc⟩, _⟩ ↦ hc.size_roots) fun e h' ⟨he, hsp⟩ ↦ ?_
  obtain ⟨⟨_, hc⟩, -⟩ := hsp hroom
  exact ⟨he, hc.size_roots⟩

private theorem Allocates.refl (hs : h.Sound l) : Allocates h l h :=
  ⟨0, 0, h, h, by rw [holding_zero]; exact .refl hs, .inl holding_zero.symm, .inl rfl,
    cutTo_size.symm⟩

/-- What an allocation does while there are `n` further roots, which are gone after it. -/
theorem allocates_holding (hs : h.Sound l) (hroom : h.Headroom)
    (hre : Rerooted h l (h.holding a n)) :
    Ends (allocateWith tag size tail) (h.holding a n)
      (fun _ h' ↦ Allocates h l (h'.cutTo h.roots.size) ∧ h'.roots.size = h.roots.size + n)
      (fun e h' ↦ (Allocates h l (h'.cutTo h.roots.size) ∨
        e.IsExhausted ∧ FailsToSupply h l e (h'.cutTo h.roots.size)) ∧
        h'.roots.size = h.roots.size + n) := by
  have hsize := ends_collect_size (hre.sound hs) (hre.headroom hs hroom)
  rw [size_holding] at hsize
  refine (supplied_allocateWith (hre.sound hs)).mono ?_ ?_
  · rintro b h' ⟨h₁, f, hsup, hp⟩
    refine ⟨⟨a, n, h₁, h', hre, hsup, .inr ⟨f, b, hp⟩, rfl⟩, ?_⟩
    rw [hp.roots]
    rcases hsup with rfl | he
    · exact size_holding
    · exact hsize.of_eq_ok he
  · rintro e h' (rfl | he | ⟨he, -⟩)
    · exact ⟨.inl ⟨a, n, _, _, hre, .inl rfl, .inl rfl, rfl⟩, size_holding⟩
    · obtain ⟨hx, hsz⟩ := hsize.of_eq_error he
      exact ⟨.inr ⟨hx, a, n, h', hre, he, rfl⟩, hsz⟩
    · exact ⟨.inl ⟨a, n, h', h', hre, .inr he, .inl rfl, rfl⟩, hsize.of_eq_ok he⟩

private theorem allocates_allocateWith (hs : h.Sound l) (hroom : h.Headroom) :
    Ends (allocateWith tag size tail) h (fun _ h' ↦ Allocates h l h')
      (fun e h' ↦ Allocates h l h' ∨ e.IsExhausted ∧ FailsToSupply h l e h') := by
  have hends : Ends (allocateWith tag size tail) (h.holding 0 0) _ _ :=
    allocates_holding hs hroom (by rw [holding_zero]; exact .refl hs)
  rw [holding_zero, Nat.add_zero] at hends
  refine hends.mono (fun _ h' ⟨ha, hsz⟩ ↦ ?_) fun e h' ⟨ha, hsz⟩ ↦ ?_ <;>
    rwa [← hsz, cutTo_size] at ha

private theorem allocates_withRoots (hs : h.Sound l) (hroom : h.Headroom) (hv : h.Valid l a) :
    Ends (withRoots a n (allocate tag 0)) h (fun _ h' ↦ Allocates h l h')
      (fun e h' ↦ Allocates h l h' ∨ e.IsExhausted ∧ FailsToSupply h l e h') := by
  have hends : Ends (allocate tag 0) (h.holding a n) _ _ :=
    allocates_holding hs hroom (rerooted_holding hs hv)
  refine (ends_withRoots (hends.mono (fun _ _ hg ↦ hg.2) fun _ _ hb ↦ hb.2)).mono ?_ ?_
  · rintro x h' ⟨h₂, he, rfl⟩
    exact (hends.of_eq_ok he).1
  · rintro e h' ⟨h₂, he, rfl⟩
    exact (hends.of_eq_error he).1

end Heap

namespace Mutator

variable {s s' : Session} {l : Census} {α β : Type} {op : HeapM α} {k : Nat → SessionM β}
  {k' : Option Nat → SessionM β} {m : Root → SessionM β}

/-! ### Instructions that only edit -/

/-- The step edits the heap, whether it succeeds or not. -/
private def Edited (x : SessionM α) (s : Session) (l : Census) : Prop :=
  Ends x s (fun _ s' ↦ s.heap.Edits l s'.heap) (fun _ s' ↦ s.heap.Edits l s'.heap)

section Edited

variable (hs : s.Sound l)
include hs

private theorem edited_refOf_bind {o : Operand}
    (hk : ∀ v, (∀ a, v = some a → s.heap.Valid l a) → Edited (k' v) s l) :
    Edited (refOf o >>= k') s l := by
  refine ((ends_refOf hs o).mono (fun _ _ h ↦ h) fun e s' he ↦ ?_).bind fun v s' ⟨he, hv⟩ ↦ ?_
  · rw [he.1]
    exact .refl hs.heap
  · subst he
    exact hk v hv

private theorem edited_objectOf_bind {o : Operand}
    (hk : ∀ a, s.heap.Valid l a → Edited (k a) s l) : Edited (objectOf o >>= k) s l := by
  rw [objectOf, bind_assoc]
  apply edited_refOf_bind hs
  intro v hv
  cases v with
  | none => exact .refl hs.heap
  | some a => exact hk a (hv a rfl)

private theorem edited_rootOf_bind {number : Nat} (hk : ∀ root, Edited (m root) s l) :
    Edited (rootOf number >>= m) s l := by
  refine (ends_rootOf.mono (fun _ _ h ↦ h) fun e s' he ↦ ?_).bind fun root s' he ↦ ?_
  · rw [he.1]
    exact .refl hs.heap
  · subst he
    exact hk root

omit hs in
-- An operation that edits the heap, and then what does not change the heap any more.
private theorem edited_onHeap_bind {k : α → SessionM β}
    (hop : Ends op s.heap (fun _ h' ↦ s.heap.Edits l h') (fun _ h' ↦ s.heap.Edits l h'))
    (hk : ∀ x s', Ends (k x) s' (fun _ s'' ↦ s''.heap = s'.heap) (fun _ s'' ↦ s''.heap = s'.heap)) :
    Edited (onHeap op >>= k) s l := by
  refine ((ends_onHeap hop).mono (fun _ _ h ↦ h) fun e s' ⟨_, _, he, _⟩ ↦ he).bind
    fun x s' ⟨he, _⟩ ↦ (hk x s').mono (fun _ s'' hh ↦ ?_) fun _ s'' hh ↦ ?_ <;>
  · rw [hh]
    exact he

omit hs in
private theorem edited_onHeap_pure {f : α → β}
    (hop : Ends op s.heap (fun _ h' ↦ s.heap.Edits l h') (fun _ h' ↦ s.heap.Edits l h')) :
    Edited (do return f (← onHeap op)) s l := edited_onHeap_bind hop fun _ _ ↦ rfl

private theorem edited_reading {f : α → β} (hop : Heap.Reads op) :
    Edited (do return f (← onHeap op)) s l := by
  refine edited_onHeap_pure ((hop s.heap).mono (fun _ _ he ↦ ?_) fun _ _ he ↦ ?_) <;>
  · rw [he]
    exact .refl hs.heap

private theorem edited_writing {f : α → β}
    (hop : Ends op s.heap (fun _ h' ↦ s.heap.Edits l h') (fun _ h' ↦ h' = s.heap)) :
    Edited (do return f (← onHeap op)) s l :=
  edited_onHeap_pure (hop.mono (fun _ _ he ↦ he) fun _ _ he ↦ by rw [he]; exact .refl hs.heap)

omit hs in
private theorem edited_rooting {f : α → β}
    (hop : Ends op s.heap (fun _ h' ↦ Heap.Rerooted s.heap l h')
      (fun _ h' ↦ Heap.Rerooted s.heap l h')) :
    Edited (do return f (← onHeap op)) s l :=
  edited_onHeap_pure (hop.mono (fun _ _ hr ↦ .rerooted hr) fun _ _ hr ↦ .rerooted hr)

end Edited

/-- An instruction that neither allocates nor collects. -/
def Instr.edits : Instr → Bool
  | .allocate .. | .allocateUnder .. | .minorCollection | .majorCollection => false
  | _ => true

/-- Such an instruction edits the heap, whether it succeeds or not. -/
theorem ends_exec_edits (hs : s.Sound l) {instr : Instr} (hi : instr.edits = true) :
    Ends (exec instr) s (fun _ s' ↦ s.heap.Edits l s'.heap)
      (fun _ s' ↦ s.heap.Edits l s'.heap) := by
  have hh := hs.heap
  have hre : Heap.Rerooted s.heap l s.heap := .refl hh
  cases instr with
  | allocate => cases hi
  | allocateUnder => cases hi
  | minorCollection => cases hi
  | majorCollection => cases hi
  | makeRoot object =>
    exact edited_objectOf_bind hs fun a hv ↦ edited_onHeap_bind
      ((Heap.ends_root hre hv).imp fun _ _ hr ↦ .rerooted hr) fun _ _ ↦ rfl
  | setRoot number object =>
    exact edited_objectOf_bind hs fun a hv ↦ edited_rootOf_bind hs fun root ↦
      edited_rooting (Heap.ends_setRootAt hre hv)
  | releaseRoot number =>
    apply edited_rootOf_bind hs
    intro root
    have hedit : Edited (do onHeap (Heap.releaseRoot root); return Reply.done)
        { s with roots := s.roots.setIfInBounds number none } l :=
      edited_rooting (Heap.ends_releaseRoot hre)
    exact hedit
  | push object =>
    exact edited_objectOf_bind hs fun a hv ↦ edited_rooting (Heap.ends_pushRoot hre hv)
  | pop => exact edited_rooting ((Heap.ends_popRoot hre).imp fun _ _ hr ↦ hr.1)
  | copy object => exact edited_refOf_bind hs fun v hv ↦ .refl hh
  | prim object index =>
    exact edited_objectOf_bind hs fun a hv ↦ edited_reading hs Heap.reads_prim
  | setPrim object index value =>
    refine edited_objectOf_bind hs fun a hv ↦ ?_
    obtain ⟨sp, f, hn⟩ := hv.named
    exact edited_writing hs (Heap.edits_setPrim hn)
  | ptr object index =>
    exact edited_objectOf_bind hs fun a hv ↦ edited_reading hs Heap.reads_ptr
  | setPtr object index value =>
    refine edited_objectOf_bind hs fun a hv ↦ edited_refOf_bind hs fun v hb ↦ ?_
    obtain ⟨sp, f, hn⟩ := hv.named
    exact edited_writing hs (Heap.edits_setPtr hn hb)
  | tailLength object =>
    exact edited_objectOf_bind hs fun a hv ↦ edited_reading hs Heap.reads_tailLength
  | tailWord object index =>
    refine edited_objectOf_bind hs fun a hv ↦ edited_onHeap_bind
      ((Heap.reads_tailWord s.heap).mono (fun _ _ he ↦ by rw [he]; exact .refl hh)
        fun _ _ he ↦ by rw [he]; exact .refl hh) fun w s' ↦ ?_
    refine ((ends_onHeap (Heap.reads_unitKind s'.heap)).mono (fun _ _ h ↦ h) ?_).bind ?_
    · rintro e s'' ⟨_, _, he, _⟩
      exact he
    · rintro kind s'' ⟨he, _⟩
      cases kind <;> exact he
  | setTailWord object index value =>
    refine edited_objectOf_bind hs fun a hv ↦ ?_
    obtain ⟨sp, f, hn⟩ := hv.named
    exact edited_writing hs (Heap.edits_setTailWord hn)
  | tailPtr object index =>
    exact edited_objectOf_bind hs fun a hv ↦ edited_reading hs Heap.reads_tailPtr
  | setTailPtr object index value =>
    refine edited_objectOf_bind hs fun a hv ↦ edited_refOf_bind hs fun v hb ↦ ?_
    obtain ⟨sp, f, hn⟩ := hv.named
    exact edited_writing hs (Heap.edits_setTailPtr hn hb)
  | redirect object target =>
    refine edited_objectOf_bind hs fun a hv ↦ edited_objectOf_bind hs fun b hb ↦ ?_
    obtain ⟨sp, f, hn⟩ := hv.named
    obtain ⟨t, g, hg⟩ := hb.named
    exact edited_writing hs ((Heap.ends_redirect hn hg).mono (fun _ _ hr ↦ .redirected hr)
      fun _ _ he ↦ he.1)
  | validate object =>
    exact edited_objectOf_bind hs fun a hv ↦ edited_reading hs Heap.reads_validate
  | describe object =>
    exact edited_objectOf_bind hs fun a hv ↦ edited_reading hs Heap.reads_describe
  | isYoung object =>
    exact edited_objectOf_bind hs fun a hv ↦ edited_reading hs (Heap.reads_ask _)
  | same first second =>
    exact edited_refOf_bind hs fun v _ ↦ edited_refOf_bind hs fun v' _ ↦ .refl hh
  | audit => exact edited_reading hs (Heap.reads_attempt _)

/-! ### All instructions -/

/-- The heap is as the instruction leaves it, if need be exhausted. -/
def Affected (instr : Instr) (s : Session) (l : Census) (e : Stop) (s' : Session) : Prop :=
  s.heap.Effect l s'.heap instr ∨
    ∃ f, e = .fault f ∧ f.IsExhausted ∧ s.heap.Overruns l f s'.heap instr

private theorem effect_of_edits {instr : Instr} {h h' : Heap} (hi : instr.edits = true)
    (he : h.Edits l h') : h.Effect l h' instr := by
  cases instr with
  | allocate => cases hi
  | allocateUnder => cases hi
  | minorCollection => cases hi
  | majorCollection => cases hi
  | _ => exact he

section Allocating

variable {h : Heap} {f : Nat → Reply}

private theorem allocated_describe {op : HeapM Nat}
    (hop : Ends op s.heap (fun _ h' ↦ s.heap.Allocates l h')
      (fun e h' ↦ s.heap.Allocates l h' ∨ e.IsExhausted ∧ s.heap.FailsToSupply l e h')) :
    Ends (do let a ← onHeap op; return Reply.allocated a (← onHeap (Heap.describe a))) s
      (fun _ s' ↦ s.heap.Allocates l s'.heap)
      (fun e s' ↦ s.heap.Allocates l s'.heap ∨
        ∃ f, e = .fault f ∧ f.IsExhausted ∧ s.heap.FailsToSupply l f s'.heap) := by
  refine ((ends_onHeap hop).mono (fun _ _ h ↦ h) ?_).bind fun a s' ⟨ha, _⟩ ↦ ?_
  · rintro e s' ⟨f, rfl, ha | ⟨hx, hf⟩, -⟩
    · exact .inl ha
    · exact .inr ⟨f, rfl, hx, hf⟩
  · refine ((ends_onHeap (Heap.reads_describe s'.heap)).mono (fun _ _ h ↦ h) ?_).bind ?_
    · rintro e s'' ⟨_, _, he, _⟩
      exact .inl (he ▸ ha)
    · rintro d s'' ⟨he, _⟩
      exact ends_pure_iff.mpr (he ▸ ha)

end Allocating

/-- What an instruction does to the heap. -/
theorem ends_exec_effect (hs : s.Sound l) (hroom : s.heap.Headroom) (instr : Instr) :
    Ends (exec instr) s (fun _ s' ↦ s.heap.Effect l s'.heap instr) (Affected instr s l) := by
  have hh := hs.heap
  cases hi : instr.edits with
  | true =>
    exact (ends_exec_edits hs hi).mono (fun _ _ he ↦ effect_of_edits hi he)
      fun _ _ he ↦ .inl (effect_of_edits hi he)
  | false =>
    cases instr with
    | allocate tag size tail =>
      cases tail with
      | none => exact allocated_describe (Heap.allocates_allocateWith hh hroom)
      | some tail => exact allocated_describe (Heap.allocates_allocateWith hh hroom)
    | allocateUnder object count tag =>
      rw [exec, objectOf, bind_assoc]
      refine ((ends_refOf hs object).mono (fun _ _ h ↦ h) fun e s' he ↦ ?_).bind ?_
      · rw [Affected, he.1]
        exact .inl (.refl hh)
      · rintro v s' ⟨rfl, hv⟩
        cases v with
        | none => exact .inl (.refl hh)
        | some a =>
          refine ((ends_onHeap (Heap.allocates_withRoots hh hroom (hv a rfl))).mono
            (fun _ _ h ↦ h) ?_).bind fun _ s'' ha ↦ ends_pure_iff.mpr ha.1
          rintro e s'' ⟨f, rfl, ha | ⟨hx, hf⟩, -⟩
          · exact .inl ha
          · exact .inr ⟨f, rfl, hx, hf⟩
    | minorCollection =>
      refine ((ends_onHeap ((ends_self Heap.collect s.heap).and (Heap.ends_collect hh))).mono
        (fun _ _ h ↦ h) ?_).bind fun _ s' he ↦ ends_pure_iff.mpr he.1.1
      rintro e s' ⟨f, rfl, ⟨he, hx, -⟩, -⟩
      exact .inr ⟨f, rfl, hx, he⟩
    | majorCollection =>
      refine ((ends_onHeap ((ends_self Heap.majorCollection s.heap).and
        (Heap.ends_majorCollection hh))).mono (fun _ _ h ↦ h) ?_).bind
          fun _ s' he ↦ ends_pure_iff.mpr he.1.1
      rintro e s' ⟨f, rfl, ⟨he, hx, -⟩, -⟩
      exact .inr ⟨f, rfl, hx, he⟩
    | _ => cases hi

/-- An instruction whose reply may be kept has the same effect. -/
theorem ends_run_effect (hs : s.Sound l) (hroom : s.heap.Headroom) (instr : Instr)
    (register : Option String) :
    Ends (run instr register) s (fun _ s' ↦ s.heap.Effect l s'.heap instr)
      (Affected instr s l) := by
  rw [run]
  refine (ends_exec_effect hs hroom instr).bind fun reply s' he ↦ ?_
  cases register with
  | none => exact he
  | some name =>
    cases hr : reply.reference? with
    | none => exact he
    | some value => exact he

/-! ### Runs -/

/-- The instruction takes the session there, with a reply or without one. A program does not go on
with an exhausted heap. -/
def Steps (instr : Instr) (s s' : Session) : Prop :=
  ∃ register, (∃ r, run instr register s = .ok r s') ∨
    ∃ e, run instr register s = .error e s' ∧ ¬ e.IsExhausted

/-- These instructions take the session there, one after the other, with the remembered set in any
order at any time. -/
inductive Performs (s : Session) : List Instr → Session → Prop
  | nil : Performs s [] s
  | snoc {instrs : List Instr} {instr : Instr} {s' s'' : Session} :
    Performs s instrs s' → Steps instr s' s'' → Performs s (instrs ++ [instr]) s''
  | reorder {instrs : List Instr} {s' : Session} {h : Heap} :
    Performs s instrs s' → s'.heap.Reordered h → Performs s instrs { s' with heap := h }

variable {settings : Settings} {table : TypeTable} {instr : Instr} {instrs : List Instr}

/-- A session that can be reached goes on to one that can be reached. -/
theorem Reaches.steps (hr : Reaches settings table s l) (hst : Steps instr s s') :
    Reaches settings table s' (l.next s.heap s'.heap) := by
  obtain ⟨register, ⟨r, he⟩ | ⟨e, he, hn⟩⟩ := hst
  · exact hr.reply he
  · exact hr.stop he hn

/-- Many instructions lead from there to a session that can be reached. -/
theorem Reaches.performs (hr : Reaches settings table s l) (hp : Performs s instrs s') :
    ∃ l', Reaches settings table s' l' := by
  induction hp with
  | nil => exact ⟨l, hr⟩
  | snoc _ hst ih =>
    obtain ⟨l', hr'⟩ := ih
    exact ⟨_, hr'.steps hst⟩
  | reorder _ ho ih =>
    obtain ⟨l', hr'⟩ := ih
    exact ⟨l', hr'.reorder ho⟩

/-- Two runs in a row make one run. -/
theorem Performs.trans {instrs' : List Instr} {s'' : Session} (hp : Performs s instrs s')
    (hp' : Performs s' instrs' s'') : Performs s (instrs ++ instrs') s'' := by
  induction hp' with
  | nil => rwa [List.append_nil]
  | snoc _ hst ih =>
    rw [← List.append_assoc]
    exact ih.snoc hst
  | reorder _ ho ih => exact ih.reorder ho

/-- To play a program is to perform its instructions. -/
theorem performs_of_play {program : List (Instr × Option String)} {replies : List Reply}
    (hp : play program s = .ok replies s') : Performs s (program.map Prod.fst) s' := by
  induction program generalizing s replies with
  | nil =>
    cases hp
    exact .nil
  | cons step rest ih =>
    obtain ⟨reply, s₁, replies', he, hp', -⟩ := play_cons_eq_ok hp
    exact (Performs.nil.snoc ⟨step.2, .inl ⟨reply, he⟩⟩).trans (ih hp')

/-- What a step does to the heap. -/
theorem Steps.effect (hst : Steps instr s s') (hs : s.Sound l) (hroom : s.heap.Headroom) :
    s.heap.Effect l s'.heap instr := by
  obtain ⟨register, ⟨r, he⟩ | ⟨e, he, hn⟩⟩ := hst
  · exact (ends_run_effect hs hroom instr register).of_eq_ok he
  · rcases (ends_run_effect hs hroom instr register).of_eq_error he with ha | ⟨f, rfl, hx, -⟩
    · exact ha
    · exact absurd hx hn

/-- A program that has an end gets there by its instructions. -/
theorem Sample.performs_of_isSome {program : List (Instr × Option String)}
    (hs : (endOf settings program).isSome = true) :
    ∃ heap s, Heap.create settings nodeTable = .ok heap ∧
      Performs { heap } (program.map Prod.fst) s ∧ endOf settings program = some s := by
  obtain ⟨heap, replies, s, hc, hp, hs⟩ := runs_of_isSome hs
  exact ⟨heap, s, hc, performs_of_play hp, hs⟩

end Mutator

end Tenure
