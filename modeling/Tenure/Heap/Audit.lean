import Std.Data.TreeSet
import Tenure.Heap.State

/-!
# Auditing a heap

An audit goes through everything that the roots reach and checks that each object has a type. It
counts the distinct objects, where the blocks of tails do not count.
-/

namespace Tenure

/-- An upper bound on the slots of one object of the table. -/
def TypeTable.slotBound (t : TypeTable) : Nat :=
  t.registered.foldl (fun bound info => max bound info.ptrs) 0 + 1 + maxTailSize

namespace Memory

/-- Visit at most `fuel` references, the last of `pending` first, and count the objects among those
not `seen` yet. -/
def countObjects (m : Memory) (table : TypeTable) :
    (fuel : Nat) → (seen : Std.TreeSet Nat) → (pending : List Nat) → (count : Nat) →
      Except Fault Nat
  | 0, _, _, count => .ok count
  | _ + 1, _, [], count => .ok count
  | fuel + 1, seen, a :: pending, count => do
    let object ← escalating (m.check table a)
    if seen.contains object then
      m.countObjects table fuel seen pending count
    else
      let slots ← m.slots table object
      let tag ← (m.header object).tag
      m.countObjects table fuel (seen.insert object) ((slots.refs m).reverse ++ pending)
        (if tag = blockTag then count else count + 1)

end Memory

namespace Heap

/-- Check every object that the roots reach. Gives the number of distinct ones. A reference is
visited once for each root and once for each slot of each object that is reached, and no more
objects are reached than there are roots and words. -/
def audit (h : Heap) : Except Fault Nat :=
  let objects := h.roots.size + h.memory.size
  h.memory.countObjects h.table (h.roots.size + objects * h.table.slotBound + 1) ∅
    h.roots.toList.reverse 0

end Heap

end Tenure
