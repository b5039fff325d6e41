import Tenure.Proofs.Effects

/-!
# Failed calls change nothing

Each operation on a heap checks all that its caller promised before it changes anything, so one that
fails has changed nothing. An allocation may collect before it gives up, but then it is for lack of
room, or because no header can hold the tag. Main statement: `Reaches.failures_clean`.
-/

namespace Tenure

namespace Heap

/-- The operation does not fail. -/
def Succeeds {α : Type} (op : HeapM α) : Prop := ∀ h, Ends op h (fun _ _ ↦ True) (fun _ _ ↦ False)

/-- If the operation fails, it has changed nothing. -/
def Atomic {α : Type} (op : HeapM α) : Prop :=
  ∀ h, Ends op h (fun _ _ ↦ True) (fun _ h' ↦ h' = h)

/-- The operation leaves the heap as it was if it fails, unless it is for lack of room. -/
def FailsCleanly {α : Type} (op : HeapM α) (h : Heap) : Prop :=
  ∀ e h', op h = .error e h' → ¬ e.IsExhausted → h' = h

/-- As `FailsCleanly`, for an allocation: it finds out last that no header can hold the tag. -/
def AllocatesCleanly {α : Type} (op : HeapM α) (tag : Nat) (h : Heap) : Prop :=
  ∀ e h', op h = .error e h' → ¬ e.IsExhausted → h' = h ∨ h.Unencodable tag e

/-- Whatever its operands are, no call of a program that fails leaves a trace in the heap, unless it
fails for lack of room. -/
structure FailuresClean (h : Heap) : Prop where
  allocate : ∀ tag size, AllocatesCleanly (allocate tag size) tag h
  allocateWith : ∀ tag size tail, AllocatesCleanly (allocateWith tag size tail) tag h
  prim : ∀ a i, FailsCleanly (prim a i) h
  setPrim : ∀ a i w, FailsCleanly (setPrim a i w) h
  ptr : ∀ a i, FailsCleanly (ptr a i) h
  setPtr : ∀ a i v, FailsCleanly (setPtr a i v) h
  tailWord : ∀ a i, FailsCleanly (tailWord a i) h
  setTailWord : ∀ a i w, FailsCleanly (setTailWord a i w) h
  tailPtr : ∀ a i, FailsCleanly (tailPtr a i) h
  setTailPtr : ∀ a i v, FailsCleanly (setTailPtr a i v) h
  redirect : ∀ a target, FailsCleanly (redirect a target) h
  releaseRoot : ∀ r, FailsCleanly (releaseRoot r) h

variable {h : Heap} {l : Census} {a i object tag size : Nat} {w : Word}
  {v : Option Nat} {α β : Type} {op : HeapM α} {k : α → HeapM β}

/-! ### Operations step by step -/

private theorem Reads.atomic (hx : Reads op) : Atomic op := fun h ↦ (hx h).imp fun _ _ _ ↦ trivial

private theorem Succeeds.atomic (hx : Succeeds op) : Atomic op := fun h ↦
  (hx h).mono (fun _ _ _ ↦ trivial) fun _ _ hf ↦ hf.elim

private theorem Succeeds.bind (hx : Succeeds op) (hk : ∀ b, Succeeds (k b)) : Succeeds (op >>= k) :=
  fun h ↦ (hx h).bind fun b h' _ ↦ hk b h'

/-- A check comes before what may fail later. -/
theorem Reads.bind_atomic (hx : Reads op) (hk : ∀ b, Atomic (k b)) : Atomic (op >>= k) := fun h ↦
  (hx h).bind fun b h' he ↦ by
    subst he
    exact hk b h'

private theorem Atomic.guard {c : Prop} [Decidable c] {e : Violation} {x : HeapM α}
    (hx : Atomic x) :
    Atomic (if c then throw (.violation e) else x) := by
  split
  · exact fun _ ↦ rfl
  · exact hx

private theorem Atomic.failsCleanly (hx : Atomic op) : FailsCleanly op h := fun _ _ he _ ↦
  (hx h).of_eq_error he

private theorem succeeds_change (f : Heap → Heap) : Succeeds (change f) := fun _ ↦ trivial

private theorem succeeds_writeWord : Succeeds (writeWord a w) := fun _ ↦ trivial

/-- Storing and remembering cannot fail any more. -/
theorem atomic_write_barrier : Atomic (do writeWord a w; writeBarrier object v) :=
  (succeeds_writeWord.bind fun _ ↦ succeeds_change _).atomic

/-! ### Accesses -/

private theorem atomic_setPrim : Atomic (setPrim a i w) :=
  reads_direct.bind_atomic fun _ ↦ .guard (reads_needWritable.bind_atomic fun _ ↦
    succeeds_writeWord.atomic)

private theorem atomic_setPtr : Atomic (setPtr a i v) :=
  reads_direct.bind_atomic fun _ ↦ .guard (reads_needWritable.bind_atomic fun _ ↦
    (reads_ask _).bind_atomic fun _ ↦ atomic_write_barrier)

private theorem atomic_setTailWord : Atomic (setTailWord a i w) :=
  reads_direct.bind_atomic fun _ ↦ .guard (reads_needWritable.bind_atomic fun _ ↦
    reads_unitOf.bind_atomic fun _ ↦ succeeds_writeWord.atomic)

private theorem atomic_setTailPtr : Atomic (setTailPtr a i v) :=
  reads_direct.bind_atomic fun _ ↦ .guard (reads_needWritable.bind_atomic fun _ ↦
    (reads_ask _).bind_atomic fun _ ↦ reads_unitOf.bind_atomic fun _ ↦ atomic_write_barrier)

private theorem atomic_redirect {target : Nat} : Atomic (redirect a target) :=
  (reads_ask _).bind_atomic fun _ ↦ (reads_ask _).bind_atomic fun _ ↦
    .guard ((succeeds_change _).bind fun _ ↦ succeeds_change _).atomic

private theorem atomic_releaseRoot {r : Root} : Atomic (releaseRoot r) := by
  intro h
  unfold Ends releaseRoot
  cases h.roots.release r with
  | ok => trivial
  | error => rfl

/-! ### Allocations -/

private theorem allocatesCleanly_allocateWith {tail : TailLayout} (hs : h.Sound l) :
    AllocatesCleanly (allocateWith tag size tail) tag h := by
  intro e h' he hn
  rcases (supplied_allocateWith hs).of_eq_error he with rfl | hc | ⟨-, hu⟩
  · exact .inl rfl
  · exact absurd ((ends_collect hs).of_eq_error hc).1 hn
  · exact .inr hu

/-- If headers can hold all tags of the table, allocations fail cleanly as well. -/
theorem AllocatesCleanly.failsCleanly (hc : AllocatesCleanly op tag h)
    (ht : h.table.size ≤ maxTag + 1) : FailsCleanly op h := by
  intro e h' he hn
  refine (hc e h' he hn).resolve_right ?_
  rintro ⟨-, hlt, hcontains⟩
  have := of_decide_eq_true hcontains
  omega

/-- Each operation that fails on a sound heap fails cleanly. -/
theorem Sound.failuresClean (hs : h.Sound l) : h.FailuresClean where
  allocate := fun tag size ↦ by
    rw [Heap.allocate]
    exact allocatesCleanly_allocateWith hs
  allocateWith := fun _ _ _ ↦ allocatesCleanly_allocateWith hs
  prim := fun _ _ ↦ reads_prim.atomic.failsCleanly
  setPrim := fun _ _ _ ↦ atomic_setPrim.failsCleanly
  ptr := fun _ _ ↦ reads_ptr.atomic.failsCleanly
  setPtr := fun _ _ _ ↦ atomic_setPtr.failsCleanly
  tailWord := fun _ _ ↦ reads_tailWord.atomic.failsCleanly
  setTailWord := fun _ _ _ ↦ atomic_setTailWord.failsCleanly
  tailPtr := fun _ _ ↦ reads_tailPtr.atomic.failsCleanly
  setTailPtr := fun _ _ _ ↦ atomic_setTailPtr.failsCleanly
  redirect := fun _ _ ↦ atomic_redirect.failsCleanly
  releaseRoot := fun _ ↦ atomic_releaseRoot.failsCleanly

/-- How an operation fails, if it does. -/
def fault? (op : HeapM α) (h : Heap) : Option Fault :=
  match op h with
  | .ok _ _ => none
  | .error e _ => some e

private theorem FailsCleanly.eq_error {e : Fault} (hc : FailsCleanly op h)
    (hf : fault? op h = some e)
    (hn : ¬ e.IsExhausted) : op h = .error e h := by
  unfold fault? at hf
  split at hf
  · cases hf
  · next e' h' he =>
    cases hf
    rw [he, hc e h' he hn]

end Heap

namespace Mutator

variable {settings : Settings} {table : TypeTable} {s : Session} {l : Census}

/-- In every heap that a program can reach, a call that fails leaves everything as it was, unless it
fails for lack of room. -/
theorem Reaches.failures_clean (hr : Reaches settings table s l) : s.heap.FailuresClean :=
  hr.sound.heap.failuresClean

open Heap in
/-- A run after which an unknown tag, too long a tail, too large an object, a field that is not
there, a redirection of an object to itself and a root that is not on top are refused. -/
theorem failures_sample : ∃ s l, Reaches Sample.smallSettings Sample.nodeTable s l ∧
    ∃ a ∈ s.heap.roots.toList,
      allocate 9 0 s.heap = .error (.fatal (.unknownTag 9)) s.heap ∧
      allocate 1 4096 s.heap = .error (.fatal (.capacityOverflow 4096 4095)) s.heap ∧
      allocateWith 1 40 .inline s.heap = .error (.fatal (.objectTooLarge 352 256)) s.heap ∧
      setPrim a 1 5 s.heap = .error (.violation (.primOutOfRange "node" 1)) s.heap ∧
      redirect a a s.heap = .error (.violation .selfRedirect) s.heap ∧
      releaseRoot ⟨0⟩ s.heap = .error (.fatal (.rootImbalance 1 0)) s.heap := by
  obtain ⟨s, l, hs, hr⟩ := Sample.reaches
  have hc : (Sample.session Sample.smallSettings).map (fun s ↦
      (s.heap.table.size, s.heap.roots.toList.head?.map fun a ↦
        [fault? (allocate 9 0) s.heap, fault? (allocate 1 4096) s.heap,
          fault? (allocateWith 1 40 .inline) s.heap, fault? (setPrim a 1 5) s.heap,
          fault? (redirect a a) s.heap, fault? (releaseRoot ⟨0⟩) s.heap])) =
      some (2, some [some (.fatal (.unknownTag 9)), some (.fatal (.capacityOverflow 4096 4095)),
        some (.fatal (.objectTooLarge 352 256)), some (.violation (.primOutOfRange "node" 1)),
        some (.violation .selfRedirect), some (.fatal (.rootImbalance 1 0))]) := by
    decide +kernel
  rw [hs, Option.map_some, Option.some.injEq, Prod.mk.injEq] at hc
  obtain ⟨hsize, hc⟩ := hc
  obtain ⟨a, ha, hc⟩ := Option.map_eq_some_iff.mp hc
  simp only [List.cons.injEq, and_true] at hc
  obtain ⟨hunknown, hlong, hlarge, hfield, hself, hroot⟩ := hc
  have hclean := hr.failures_clean
  have hsize : s.heap.table.size ≤ maxTag + 1 := by rw [hsize]; decide
  exact ⟨s, l, hr, a, List.mem_of_head? ha,
    ((hclean.allocate _ _).failsCleanly hsize).eq_error hunknown id,
    ((hclean.allocate _ _).failsCleanly hsize).eq_error hlong id,
    ((hclean.allocateWith _ _ _).failsCleanly hsize).eq_error hlarge id,
    (hclean.setPrim _ _ _).eq_error hfield id, (hclean.redirect _ _).eq_error hself id,
    (hclean.releaseRoot _).eq_error hroot id⟩

end Mutator

end Tenure
