import Tenure.Fault

/-!
# The root stack

Every reference that must survive a collection is on this stack. A root is a guard for one entry:
it is made by a push, it reads and replaces its own entry, and it must be released in the reverse
order of creation. While a failure is being unwound the order is free, since a release then cuts
the stack off at the root's depth. Main statement: unwinding a set of roots leaves the entries
below the lowest of them.
-/

namespace Tenure

/-- A stack of references; depth 0 is the bottom. -/
structure RootStack (α : Type) where
  entries : Array α := #[]
  deriving DecidableEq, Repr

/-- A guard for the entry at one depth. -/
structure Root where
  depth : Nat
  deriving DecidableEq, Repr

namespace RootStack

variable {α : Type}

/-- The number of entries. -/
def size (s : RootStack α) : Nat := s.entries.size

/-- The entries, bottom first. -/
def toList (s : RootStack α) : List α := s.entries.toList

/-- Put a reference on top. Its depth is the number of entries below it. -/
def push (s : RootStack α) (a : α) : RootStack α := ⟨s.entries.push a⟩

/-- Remove the entry on top. -/
def pop (s : RootStack α) : Except Fault (α × RootStack α) :=
  match s.entries.back? with
  | some a => .ok (a, ⟨s.entries.pop⟩)
  | none => .error (.fatal (.rootImbalance 0 0))

/-- The entry at a depth. -/
def get (s : RootStack α) (depth : Nat) : Except Fault α :=
  match s.entries[depth]? with
  | some a => .ok a
  | none => .error (.violation (.depthOutOfRange depth s.size))

/-- Replace the entry at a depth. -/
def set (s : RootStack α) (depth : Nat) (a : α) : Except Fault (RootStack α) :=
  if depth < s.size then .ok ⟨s.entries.setIfInBounds depth a⟩
  else .error (.violation (.depthOutOfRange depth s.size))

/-- Replace every entry by what a visitor makes of it. -/
def mark (s : RootStack α) (visit : α → α) : RootStack α := ⟨s.entries.map visit⟩

/-- Replace every entry by what a visitor with effects makes of it, bottom first. -/
def markM {m : Type → Type} [Monad m] (s : RootStack α) (visit : α → m α) : m (RootStack α) := do
  return ⟨(← s.entries.toList.mapM visit).toArray⟩

/-- Keep the lowest `depth` entries. -/
def truncate (s : RootStack α) (depth : Nat) : RootStack α := ⟨s.entries.take depth⟩

/-- The depth of the entry on top. An empty stack counts as one below depth 0, as a word. -/
def top (s : RootStack α) : Nat := if s.size = 0 then UInt64.size - 1 else s.size - 1

/-- A guard for a new entry. -/
def root (s : RootStack α) (a : α) : Root × RootStack α := (⟨s.size⟩, s.push a)

/-- Remove the entry of a root, which must be on top. -/
def release (s : RootStack α) (r : Root) : Except Fault (RootStack α) :=
  if r.depth = s.top then .ok ⟨s.entries.pop⟩
  else .error (.fatal (.rootImbalance s.top r.depth))

/-- Give up a root while a failure is being unwound. This never fails. -/
def abandon (s : RootStack α) (r : Root) : RootStack α := s.truncate r.depth

/-- Give up roots in this order while a failure is being unwound. -/
def unwind (s : RootStack α) (roots : List Root) : RootStack α := roots.foldl abandon s

/-- A push adds its entry on top. -/
@[simp] theorem toList_push (s : RootStack α) (a : α) : (s.push a).toList = s.toList ++ [a] := by
  simp [toList, push]

/-- What is left after a cut is the lowest entries. -/
@[simp] theorem toList_truncate (s : RootStack α) (depth : Nat) :
    (s.truncate depth).toList = s.toList.take depth := by
  simp [toList, truncate]

/-- Marking visits the entries and keeps their order. -/
@[simp] theorem toList_mark (s : RootStack α) (visit : α → α) :
    (s.mark visit).toList = s.toList.map visit := by
  simp [toList, mark]

/-- A stack is the list of its entries. -/
theorem ext_toList {s s' : RootStack α} (h : s.toList = s'.toList) : s = s' := by
  cases s
  cases s'
  simp only [toList] at h
  rw [Array.toList_inj.mp h]

/-- The list has as many entries as the stack. -/
theorem length_toList (s : RootStack α) : s.toList.length = s.size := by
  simp [toList, size]

/-- There is an entry at each depth below the size. -/
theorem get_eq_ok_iff {s : RootStack α} {depth : Nat} {a : α} :
    s.get depth = .ok a ↔ s.toList[depth]? = some a := by
  simp only [get, toList, Array.getElem?_toList]
  cases s.entries[depth]? <;> simp

/-- Only an entry that there is can be replaced. -/
theorem set_eq_ok_iff {s s' : RootStack α} {depth : Nat} {a : α} :
    s.set depth a = .ok s' ↔ depth < s.size ∧ s'.toList = s.toList.set depth a := by
  have hlist : (RootStack.mk (s.entries.setIfInBounds depth a)).toList = s.toList.set depth a := by
    simp [toList]
  rw [set]
  split
  · next h =>
    rw [and_iff_right h, ← hlist, Except.ok.injEq]
    exact ⟨fun he => he ▸ rfl, fun he => (ext_toList he).symm⟩
  · next h => simp [h]

/-- Only the root on top can be released. -/
theorem release_eq_ok_iff {s s' : RootStack α} {r : Root} :
    s.release r = .ok s' ↔ r.depth = s.top ∧ s'.toList = s.toList.dropLast := by
  have hlist : (RootStack.mk s.entries.pop).toList = s.toList.dropLast := by
    simp [toList]
  rw [release]
  split
  · next h =>
    rw [and_iff_right h, ← hlist, Except.ok.injEq]
    exact ⟨fun he => he ▸ rfl, fun he => (ext_toList he).symm⟩
  · next h => simp [h]

/-- Only an entry that there is can be removed. -/
theorem pop_eq_ok_iff {s s' : RootStack α} {a : α} :
    s.pop = .ok (a, s') ↔ s.toList.getLast? = some a ∧ s'.toList = s.toList.dropLast := by
  have hlist : (RootStack.mk s.entries.pop).toList = s.toList.dropLast := by
    simp [toList]
  have hlast : s.entries.back? = s.toList.getLast? := by
    simp [toList]
  rw [pop, hlast]
  cases s.toList.getLast? with
  | none => simp
  | some b =>
    simp only [Except.ok.injEq, Prod.mk.injEq, Option.some.injEq, ← hlist]
    constructor
    · rintro ⟨rfl, rfl⟩
      exact ⟨rfl, rfl⟩
    · rintro ⟨rfl, he⟩
      exact ⟨rfl, (ext_toList he).symm⟩

/-- Unwinding leaves what lies below the lowest of the roots, in whatever order they go. -/
theorem toList_unwind (s : RootStack α) (roots : List Root) :
    (s.unwind roots).toList =
      s.toList.take (roots.foldl (fun depth r => min depth r.depth) s.toList.length) := by
  suffices h : ∀ (s' : RootStack α) (n : Nat), s'.toList = s.toList.take n →
      (s'.unwind roots).toList = s.toList.take (roots.foldl (fun d r => min d r.depth) n) by
    exact h s s.toList.length (by simp)
  induction roots with
  | nil => intro s' n h; exact h
  | cons r roots ih =>
    intro s' n h
    simp only [unwind, List.foldl_cons] at ih ⊢
    refine ih _ _ ?_
    rw [abandon, toList_truncate, h, List.take_take, Nat.min_comm]

end RootStack

namespace Root

variable {α : Type}

/-- Read the entry of a root. -/
def get (r : Root) (s : RootStack α) : Except Fault α := s.get r.depth

/-- Replace the entry of a root. -/
def set (r : Root) (a : α) : EStateM Fault (RootStack α) Unit := fun s =>
  match s.set r.depth a with
  | .ok s' => .ok () s'
  | .error fault => .error fault s

/-- Drop a root. While a failure is being unwound it is given up, otherwise it is released. -/
def drop (unwinding : Bool) (r : Root) : EStateM Fault (RootStack α) Unit := fun s =>
  if unwinding then .ok () (s.abandon r)
  else
    match s.release r with
    | .ok s' => .ok () s'
    | .error fault => .error fault s

end Root

end Tenure
