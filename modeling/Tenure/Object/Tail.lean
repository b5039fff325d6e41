import Tenure.Object.Chain

/-!
# Tail units

A tail is addressed by unit, wherever it is stored. Every access follows indirections first.
-/

namespace Tenure

namespace Memory

/-- The address of the first tail unit of the object that `a` denotes. -/
def tailStart (m : Memory) (table : TypeTable) (a : Nat) : Except Fault Nat := do
  let object := m.resolve a
  let h := m.header object
  let info ← table.lookup (← h.tag)
  match ← h.tail with
  | .inline => return object + 1 + info.fields
  | .outOfLine => return Word.toAddr (m.read (object + 1 + info.fields)) + 1

/-- The number of tail units of the object that `a` denotes. -/
def tailSize (m : Memory) (a : Nat) : Except Fault Nat := (m.header (m.resolve a)).size

/-- The address of a tail unit of the object that `a` denotes. A unit past the end is reported
before a broken header. -/
def unitAddr (m : Memory) (table : TypeTable) (a index : Nat) : Except Fault Nat := do
  let size ← m.tailSize a
  if size ≤ index then throw (.violation (.unitOutOfRange index size))
  return (← m.tailStart table a) + index

end Memory

end Tenure
