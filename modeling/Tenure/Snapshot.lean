import Std.Data.TreeMap
import Tenure.Heap.State
import Tenure.Object.Contents

/-!
# Snapshots

A snapshot is the graph of everything that the roots reach, without addresses. Objects are numbered
in the order in which they are met: the roots first, from the bottom of the stack, and then object
by object the reference fields and the tail units. Indirections and blocks are no objects here; a
reference only notes how many indirections it passed. So two heaps in which the roots reach the
same graph have snapshots that differ in these notes, in the places of the objects and in the
layouts of their tails at most.
-/

namespace Tenure

namespace Snapshot

/-- Where an object lies. -/
inductive Place
  | nursery
  | semispace
  | elsewhere
  deriving DecidableEq, Repr

/-- A reference to a numbered object, through so many indirections. -/
structure Edge where
  node : Nat
  hops : Nat
  deriving DecidableEq, Repr

/-- An object; it has contents if its tag has a type. -/
structure Node where
  place : Place
  tag : Nat
  size : Nat
  tail : TailLayout
  contents : Option (Contents Edge)
  deriving DecidableEq, Repr

/-- The objects met so far, in order, with their numbers. -/
structure Numbering where
  numbers : Std.TreeMap Nat Nat := ∅
  order : Array Nat := #[]

/-- Follow a reference, and number the object that it denotes if it has no number yet. -/
def meet (m : Memory) (a : Nat) : StateM Numbering Edge := fun met =>
  let (hops, object) := m.chase a
  match met.numbers[object]? with
  | some node => (⟨node, hops⟩, met)
  | none =>
    let node := met.order.size
    (⟨node, hops⟩, ⟨met.numbers.insert object node, met.order.push object⟩)

/-- The object at `a`. -/
def node (m : Memory) (table : TypeTable) (place : Nat → Place) (a : Nat) :
    StateM Numbering Node := do
  let h := m.header a
  let contents ← (m.contents? table a).mapM fun c => c.traverse (meet m)
  return { place := place a, tag := h.tagBits, size := h.sizeBits, tail := h.tailBits, contents }

/-- The objects with numbers from `next` on, of which there are at most `fuel`. -/
def nodesFrom (m : Memory) (table : TypeTable) (place : Nat → Place) :
    (fuel : Nat) → (next : Nat) → Array Node → StateM Numbering (Array Node)
  | 0, _, drawn => return drawn
  | fuel + 1, next, drawn => fun met =>
    match met.order[next]? with
    | none => (drawn, met)
    | some a =>
      (do let n ← node m table place a
          nodesFrom m table place fuel (next + 1) (drawn.push n)) met

end Snapshot

/-- Everything that the roots reach. -/
structure Snapshot where
  roots : List Snapshot.Edge
  nodes : Array Snapshot.Node
  deriving DecidableEq, Repr

/-- Where the object at `a` lies. -/
def Heap.place (h : Heap) (a : Nat) : Snapshot.Place :=
  if h.nursery.region.contains a then .nursery
  else if h.semispace.active.contains a then .semispace
  else .elsewhere

/-- The snapshot of a heap. There are no more objects than roots and words. -/
def Heap.snapshot (h : Heap) : Snapshot :=
  let draw : StateM Snapshot.Numbering Snapshot := do
    let roots ← h.roots.toList.mapM (Snapshot.meet h.memory)
    let nodes ← Snapshot.nodesFrom h.memory h.table h.place
      (h.roots.size + h.memory.size) 0 #[]
    return { roots, nodes }
  (draw.run {}).1

end Tenure
