import Tenure.Fault
import Tenure.Memory

/-!
# Bump regions

A region is a range of mapped words that is handed out from the bottom. Its cursor is the number
of words handed out so far and never passes the capacity; that is part of the type.
-/

namespace Tenure

/-- A range of words, of which the lowest `cursor` are in use. -/
@[ext]
structure Region where
  start : Nat
  capacity : Nat
  cursor : Nat := 0
  cursor_le : cursor ≤ capacity := by omega
  deriving DecidableEq, Repr

namespace Region

/-- The words that can still be handed out. -/
def free (r : Region) : Nat := r.capacity - r.cursor

/-- The bytes in use. -/
def usedBytes (r : Region) : Nat := r.cursor * wordBytes

/-- The bytes that can still be handed out. -/
def freeBytes (r : Region) : Nat := r.free * wordBytes

/-- The bytes of the whole region. -/
def capacityBytes (r : Region) : Nat := r.capacity * wordBytes

/-- Does the address lie in the region, in use or not? -/
def contains (r : Region) (a : Nat) : Bool := r.start ≤ a && a < r.start + r.capacity

/-- Hand out the next `n` words, or nothing if they do not fit. -/
def bump (r : Region) (n : Nat) : Option (Nat × Region) :=
  if h : n ≤ r.free then
    some (r.start + r.cursor, { r with
      cursor := r.cursor + n
      cursor_le := by
        have := r.cursor_le
        simp only [free] at h
        omega })
  else none

/-- Take all words back. -/
def reset (r : Region) : Region := { r with cursor := 0, cursor_le := Nat.zero_le _ }

/-- The words left unused in front of each region. With them the address behind a region belongs to
no region. -/
def gap : Nat := 2

/-- Map a new region of `n` words, all zero. A region is smaller than half of the address space, so
that distances in it fit a signed word. -/
def reserve (m : Memory) (n : Nat) : Except Fault (Region × Memory) :=
  match if 2 * n < addressLimit then m.extend? (gap + n) else none with
  | some m' => .ok ({ start := m.endAddr + gap, capacity := n }, m')
  | none => .error (.violation .addressSpaceFull)

/-- The address of the word at a place in the region, which must be in use. -/
def wordAt (r : Region) (index : Nat) : Except Fault Nat :=
  if index < r.cursor then .ok (r.start + index) else .error (.violation .wordNotInUse)

/-- A region covers the addresses from its start up to its capacity. -/
theorem mem_iff {r : Region} {a : Nat} :
    r.contains a = true ↔ r.start ≤ a ∧ a < r.start + r.capacity := by
  simp [contains]

/-- The words handed out lie behind those in use and inside the region. -/
theorem bump_eq_some_iff {r r' : Region} {n a : Nat} :
    r.bump n = some (a, r') ↔
      r.cursor + n ≤ r.capacity ∧ a = r.start + r.cursor ∧ r'.start = r.start ∧
        r'.capacity = r.capacity ∧ r'.cursor = r.cursor + n := by
  have hc := r.cursor_le
  rw [bump]
  split
  · next h =>
    simp only [free] at h
    simp only [Option.some.injEq, Prod.mk.injEq]
    constructor
    · rintro ⟨rfl, rfl⟩
      exact ⟨by omega, rfl, rfl, rfl, rfl⟩
    · rintro ⟨-, rfl, hs, hk, hu⟩
      cases r'
      simp only at hs hk hu
      subst hs hk hu
      exact ⟨rfl, rfl⟩
  · next h =>
    simp only [free] at h
    simp only [reduceCtorEq, false_iff]
    omega

/-- Nothing is handed out just if too few words are left. -/
theorem bump_eq_none_iff {r : Region} {n : Nat} :
    r.bump n = none ↔ r.capacity < r.cursor + n := by
  have hc := r.cursor_le
  rw [bump]
  split
  · next h =>
    simp only [free] at h
    simp only [reduceCtorEq, false_iff]
    omega
  · next h =>
    simp only [free] at h
    simp only [true_iff]
    omega

end Region

end Tenure
