import Tenure.Memory
import Tenure.TypeTable

/-!
# Indirection chains

An indirection stands for the object that it leads to, through however many further indirections.
A walk passes each word at most once unless it runs in a circle, so it ends within as many hops as
there are words; a walk in a circle is cut off there.
-/

namespace Tenure

namespace Memory

/-- Where the header at `a` leads, if it is an indirection. -/
def hop? (m : Memory) (a : Nat) : Option Nat :=
  match (m.header a).decode with
  | .indirection target => some (Word.toAddr target)
  | .direct .. => none

/-- Follow at most `fuel` indirections from `a`. Gives the hops made, added to `hops`, and the
address reached. -/
def walk (m : Memory) (hops : Nat) : (fuel : Nat) → (a : Nat) → Nat × Nat
  | 0, a => (hops, a)
  | fuel + 1, a =>
    match m.hop? a with
    | none => (hops, a)
    | some b => m.walk (hops + 1) fuel b

/-- Follow every indirection from `a`. Gives the number of hops and the object reached. -/
def chase (m : Memory) (a : Nat) : Nat × Nat := m.walk 0 m.size a

/-- The object that a reference to `a` denotes. -/
def resolve (m : Memory) (a : Nat) : Nat := (m.chase a).2

/-- Make the header at `a` an indirection to `target`. -/
def redirect (m : Memory) (a target : Nat) : Memory :=
  m.writeHeader a (.forward (Word.ofAddr target))

/-- The object that a reference denotes, if its tag has a type; the caller decides what to do
about one whose tag has none. -/
def check (m : Memory) (table : TypeTable) (a : Nat) : Except Fault Nat := do
  let object := m.resolve a
  let tag ← (m.header object).tag
  if table.contains tag then return object
  throw (.refused (.heapCorruption tag table.size))

/-- One line on the object that a reference denotes, with a mark for each hop on the way. -/
def describe (m : Memory) (table : TypeTable) (a : Nat) : Except Fault String := do
  let (hops, object) := m.chase a
  let h := m.header (← m.check table object)
  let info ← table.lookup (← h.tag)
  let marks := String.join (List.replicate hops "IND ")
  return s!"{marks}Node: {info.name}, prims: {info.prims}, ptrs: {info.ptrs}, " ++
    s!"tail: {(← h.tail).text}, size: {← h.size}"

/-- A header that is direct leads nowhere. -/
theorem hop?_eq_none_iff {m : Memory} {a : Nat} :
    m.hop? a = none ↔ (m.header a).isIndirection = false := by
  simp only [hop?, Header.decode]
  cases (m.header a).isIndirection <;> simp

/-- A direct object is what a reference to it denotes. -/
theorem resolve_of_hop?_eq_none {m : Memory} {a : Nat} (h : m.hop? a = none) :
    m.resolve a = a := by
  simp only [resolve, chase]
  cases m.size with
  | zero => rfl
  | succ n => simp [walk, h]

/-- The count that a walk starts from plays no part in where it goes. -/
theorem walk_eq (m : Memory) (hops fuel a : Nat) :
    m.walk hops fuel a = (hops + (m.walk 0 fuel a).1, (m.walk 0 fuel a).2) := by
  induction fuel generalizing hops a with
  | zero => rfl
  | succ fuel ih =>
    simp only [walk]
    split
    · rfl
    · next b _ =>
      rw [ih (hops + 1) b, ih (0 + 1) b]
      simp only [Prod.mk.injEq, and_true]
      omega

end Memory

end Tenure
