import Tenure.Heap.Access
import Tenure.Heap.Audit
import Tenure.Heap.Collect
import Tenure.Proofs.Outcome

/-!
# Kinds of faults

A heap is exhausted when it has run out of room. Only copying and the check for headroom report
that; all other parts of the heap are tame. Main statements: `tame_countObjects` and the lemmas on
the operations of the heap that do not collect.
-/

namespace Tenure

/-- The error is beyond repair. -/
def Fault.IsFatal : Fault → Prop
  | .fatal _ => True
  | _ => False

/-- A heap has run out of room. -/
def Fault.IsExhausted : Fault → Prop
  | .fatal (.exhausted _ _) => True
  | _ => False

/-- Exhaustion is fatal. -/
theorem Fault.IsExhausted.isFatal {e : Fault} (h : e.IsExhausted) : e.IsFatal := by
  cases e with
  | fatal => trivial
  | refused => exact h.elim
  | violation => exact h.elim

/-- A part that never reports a lack of room, not even if its caller makes the error fatal. -/
def Tame {α : Type} (x : Except Fault α) : Prop := ∀ e, x = .error e → ¬ e.escalate.IsExhausted

variable {α β : Type} {m : Memory} {table : TypeTable} {a : Nat}

namespace Tame

variable {x : Except Fault α} {f : α → Except Fault β}

private theorem ok (b : α) : Tame (.ok b : Except Fault α) := fun _ he ↦ by cases he

private theorem error {e : Fault} (h : ¬ e.escalate.IsExhausted) :
    Tame (.error e : Except Fault α) := by
  rintro _ ⟨⟩
  exact h

private theorem bind (hx : Tame x) (hf : ∀ b, Tame (f b)) : Tame (x >>= f) := by
  cases x with
  | ok b => exact hf b
  | error e => exact error (hx e rfl)

/-- An error that is made fatal once stays as it is. -/
theorem escalating (hx : Tame x) : Tame (escalating x) := by
  cases x with
  | ok b => exact ok b
  | error e =>
    refine error ?_
    have h := hx e rfl
    cases e <;> exact h

private theorem not_isExhausted {e : Fault} (hx : Tame x) (he : x = .error e) :
    ¬ e.IsExhausted := by
  have h := hx e he
  cases e with
  | refused => exact id
  | fatal => exact h
  | violation => exact id

end Tame

/-! ### Parts that read the memory -/

private theorem tame_needDirect (h : Header) (field : HeaderField) : Tame (h.needDirect field) := by
  rw [Header.needDirect]
  split
  · exact .error id
  · exact .ok _

private theorem tame_tag (h : Header) : Tame h.tag := (tame_needDirect h .tag).bind fun _ ↦ .ok _

private theorem tame_size (h : Header) : Tame h.size := (tame_needDirect h .size).bind fun _ ↦ .ok _

private theorem tame_tail (h : Header) : Tame h.tail := (tame_needDirect h .tail).bind fun _ ↦ .ok _

private theorem tame_lookup (table : TypeTable) (tag : Nat) : Tame (table.lookup tag) := by
  rw [TypeTable.lookup]
  split
  · exact .ok _
  · exact .error id

/-- Working out the sizes of an allocation does not exhaust the heap. -/
theorem tame_footprint {tag size : Nat} {tail : TailLayout} {padding : Bool} :
    Tame (table.footprint tag size tail padding) := by
  unfold TypeTable.footprint
  split
  · exact .error id
  · split
    · exact .error id
    · exact .ok _

private theorem tame_check : Tame (m.check table a) :=
  (tame_tag _).bind fun tag ↦ by
    split
    · exact .ok _
    · exact .error id

private theorem tame_describe : Tame (m.describe table a) :=
  tame_check.bind fun _ ↦ (tame_tag _).bind fun _ ↦ (tame_lookup _ _).bind fun _ ↦
    (tame_tail _).bind fun _ ↦ (tame_size _).bind fun _ ↦ .ok _

private theorem tame_slots : Tame (m.slots table a) :=
  (tame_tag _).bind fun _ ↦ (tame_lookup _ _).bind fun _ ↦ (tame_size _).bind fun _ ↦
    (tame_tail _).bind fun tail ↦ by cases tail <;> exact .ok _

private theorem tame_unitAddr {index : Nat} : Tame (m.unitAddr table a index) :=
  (tame_size _).bind fun size ↦ by
    split
    · exact .error id
    · refine Tame.bind ?_ fun _ ↦ .ok _
      refine (tame_tag _).bind fun _ ↦ (tame_lookup _ _).bind fun _ ↦ ?_
      exact (tame_tail _).bind fun tail ↦ by
        cases tail <;> exact .ok _

private theorem tame_countObjects {fuel count : Nat} {seen : Std.TreeSet Nat} {pending : List Nat} :
    Tame (m.countObjects table fuel seen pending count) := by
  induction fuel generalizing seen pending count with
  | zero => exact .ok _
  | succ fuel ih =>
    cases pending with
    | nil => exact .ok _
    | cons a pending =>
      refine tame_check.escalating.bind fun object ↦ ?_
      split
      · exact ih
      · exact tame_slots.bind fun _ ↦ (tame_tag _).bind fun _ ↦ ih

section RootStack

variable {roots : RootStack Nat} {depth : Nat}

private theorem tame_pop : Tame roots.pop := by
  rw [RootStack.pop]
  split
  · exact .ok _
  · exact .error id

private theorem tame_get : Tame (roots.get depth) := by
  rw [RootStack.get]
  split
  · exact .ok _
  · exact .error id

private theorem tame_set : Tame (roots.set depth a) := by
  rw [RootStack.set]
  split
  · exact .ok _
  · exact .error id

private theorem tame_release {r : Root} : Tame (roots.release r) := by
  rw [RootStack.release]
  split
  · exact .ok _
  · exact .error id

end RootStack

/-! ### Operations of the heap -/

namespace Heap

/-- An operation that never reports a lack of room. -/
def Tame (op : HeapM α) : Prop := ∀ h, Ends op h (fun _ _ ↦ True) (fun e _ ↦ ¬ e.IsExhausted)

variable {op : HeapM α} {k : α → HeapM β} {index : Nat}

/-- Operations in a row do not exhaust the heap if none of them does. -/
theorem Tame.bind (hx : Tame op) (hk : ∀ b, Tame (k b)) : Tame (op >>= k) := fun h ↦
  (hx h).bind fun b h' _ ↦ hk b h'

/-- To return does not exhaust the heap. -/
theorem tame_pure (b : α) : Tame (pure b) := fun _ ↦ trivial

/-- To look at the heap does not exhaust it. -/
theorem tame_ask (f : Heap → α) : Tame (ask f) := fun _ ↦ trivial

private theorem tame_change (f : Heap → Heap) : Tame (change f) := fun _ ↦ trivial

/-- A violation is no exhaustion. -/
theorem tame_violation (v : Violation) : Tame (throw (.violation v) : HeapM α) := fun _ ↦ id

private theorem tame_attempt {look : Heap → Except Fault α} (hl : ∀ h, Tenure.Tame (look h)) :
    Tame fun h ↦ attempt (look h) h := by
  intro h
  simp only [Ends]
  cases he : look h with
  | ok => trivial
  | error e => exact (hl h).not_isExhausted he

/-- An operation after a check of what the caller promised. -/
theorem tame_guard {c : Prop} [Decidable c] {v : Violation} {x : HeapM α} (hx : Tame x) :
    Tame (if c then throw (.violation v) else x) := by
  split
  · exact tame_violation v
  · exact hx

private theorem tame_direct : Tame (direct a) :=
  tame_attempt fun _ ↦ (tame_tag _).bind fun _ ↦ (tame_lookup _ _).bind fun _ ↦ .ok _

private theorem tame_needWritable {object : Nat} {info : TypeInfo} :
    Tame (needWritable object info) := by
  rw [needWritable]
  refine (tame_ask _).bind fun _ ↦ ?_
  split
  · exact fun _ ↦ id
  · exact tame_pure _

private theorem tame_unitOf {object : Nat} : Tame (unitOf object index) :=
  tame_attempt fun _ ↦ tame_unitAddr

/-- Reading a plain field does not exhaust the heap. -/
theorem tame_prim : Tame (prim a index) :=
  tame_direct.bind fun _ ↦ tame_guard (tame_ask _)

/-- Writing a plain field does not exhaust the heap. -/
theorem tame_setPrim {w : Word} : Tame (setPrim a index w) :=
  tame_direct.bind fun _ ↦ tame_guard (tame_needWritable.bind fun _ ↦ tame_change _)

/-- Reading a reference field does not exhaust the heap. -/
theorem tame_ptr : Tame (ptr a index) :=
  tame_direct.bind fun _ ↦ tame_guard ((tame_ask _).bind fun _ ↦ tame_pure _)

/-- Writing a reference field does not exhaust the heap. -/
theorem tame_setPtr {v : Option Nat} : Tame (setPtr a index v) :=
  tame_direct.bind fun _ ↦ tame_guard (tame_needWritable.bind fun _ ↦ (tame_ask _).bind fun _ ↦
    (tame_change _).bind fun _ ↦ tame_change _)

/-- Reading the length of a tail does not exhaust the heap. -/
theorem tame_tailLength : Tame (tailLength a) :=
  tame_direct.bind fun _ ↦ tame_attempt fun _ ↦ tame_size _

/-- Reading a word of a tail does not exhaust the heap. -/
theorem tame_tailWord : Tame (tailWord a index) := tame_unitOf.bind fun _ ↦ tame_ask _

/-- Writing a word of a tail does not exhaust the heap. -/
theorem tame_setTailWord {w : Word} : Tame (setTailWord a index w) :=
  tame_direct.bind fun _ ↦ tame_guard (tame_needWritable.bind fun _ ↦ tame_unitOf.bind fun _ ↦
    tame_change _)

/-- Reading a reference of a tail does not exhaust the heap. -/
theorem tame_tailPtr : Tame (tailPtr a index) :=
  tame_direct.bind fun _ ↦ tame_guard (tame_unitOf.bind fun _ ↦ (tame_ask _).bind fun _ ↦
    tame_pure _)

/-- Writing a reference of a tail does not exhaust the heap. -/
theorem tame_setTailPtr {v : Option Nat} : Tame (setTailPtr a index v) :=
  tame_direct.bind fun _ ↦ tame_guard (tame_needWritable.bind fun _ ↦ (tame_ask _).bind fun _ ↦
    tame_unitOf.bind fun _ ↦ (tame_change _).bind fun _ ↦ tame_change _)

/-- Redirecting an object does not exhaust the heap. -/
theorem tame_redirect {target : Nat} : Tame (redirect a target) :=
  (tame_ask _).bind fun _ ↦ (tame_ask _).bind fun _ ↦ tame_guard ((tame_change _).bind fun _ ↦
    tame_change _)

/-- Checking an object does not exhaust the heap. -/
theorem tame_validate : Tame (validate a) := tame_attempt fun _ ↦ tame_check.escalating

/-- Describing an object does not exhaust the heap. -/
theorem tame_describe : Tame (describe a) := tame_attempt fun _ ↦ Tenure.tame_describe.escalating

/-- Reading the kind of the units does not exhaust the heap. -/
theorem tame_unitKind : Tame (unitKind a) := tame_direct.bind fun _ ↦ tame_pure _

/-- The audit does not exhaust the heap. -/
theorem tame_audit : Tame fun h ↦ attempt h.audit h := tame_attempt fun _ ↦ tame_countObjects

/-- Pushing a raw root does not exhaust the heap. -/
theorem tame_pushRoot : Tame (pushRoot a) := fun _ ↦ trivial

/-- Making a root does not exhaust the heap. -/
theorem tame_root : Tame (root a) := fun _ ↦ trivial

/-- Popping a raw root does not exhaust the heap. -/
theorem tame_popRoot : Tame popRoot := by
  intro h
  unfold Ends popRoot
  cases hp : h.roots.pop with
  | ok => trivial
  | error e => exact tame_pop.not_isExhausted hp

/-- Reading a root does not exhaust the heap. -/
theorem tame_rootAt : Tame (rootAt index) := tame_attempt fun _ ↦ tame_get

/-- Writing a root does not exhaust the heap. -/
theorem tame_setRootAt : Tame (setRootAt index a) := by
  intro h
  unfold Ends setRootAt
  cases hp : h.roots.set index a with
  | ok => trivial
  | error e => exact tame_set.not_isExhausted hp

/-- Releasing a root does not exhaust the heap. -/
theorem tame_releaseRoot {r : Root} : Tame (releaseRoot r) := by
  intro h
  unfold Ends releaseRoot
  cases hp : h.roots.release r with
  | ok => trivial
  | error e => exact tame_release.not_isExhausted hp

/-- An attempt to place an object does not exhaust the heap. -/
theorem tame_tryPlace {f : Footprint} : Tame (tryPlace f) := by
  intro h
  unfold Ends
  split
  · trivial
  · next e h' he =>
    unfold tryPlace at he
    split at he
    · cases he
      exact id
    · split at he
      · cases he
      · split at he
        · cases he
          exact id
        · cases he

/-- A loop of operations that never report a lack of room. -/
theorem Tame.forM {xs : List α} {step : α → HeapM PUnit} (hs : ∀ b, Tame (step b)) :
    Tame (xs.forM step) := fun _ ↦
  (Ends.forM (fun _ _ ↦ True) trivial fun _ b _ s _ _ ↦ hs b s).imp fun _ _ _ ↦ trivial

end Heap

end Tenure
