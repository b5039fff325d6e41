import Tenure.Heap.State
import Tenure.Object.Tail

/-!
# Reading and writing objects

A program names objects by reference, and every access follows indirections first. An access to a
part that the object's type does not have breaks a promise; a write to an immutable object that has
left the nursery is fatal. A write of a reference to a young object into an old one puts the old
object into the remembered set.
-/

namespace Tenure

namespace Heap

/-- The object that a reference denotes, with its type. -/
def direct (a : Nat) : HeapM (Nat × TypeInfo) := fun h =>
  let object := h.memory.resolve a
  attempt (do
    let tag ← (h.memory.header object).tag
    return (object, ← h.table.lookup tag)) h

/-- Read a word. -/
def readWord (a : Nat) : HeapM Word := ask (·.memory.read a)

/-- Write a word. -/
def writeWord (a : Nat) (w : Word) : HeapM Unit := changeMemory (·.write a w)

/-- An immutable object is written in the nursery or not at all. -/
def needWritable (object : Nat) (info : TypeInfo) : HeapM Unit := do
  if !info.isMutable && !(← ask (·.nursery.region.contains object)) then
    throw (.fatal (.immutableWrite info.name))

/-- Remember an old object that now refers to a young one. -/
def writeBarrier (object : Nat) (value : Option Nat) : HeapM Unit := change fun h =>
  match value with
  | none => h
  | some young =>
    if !h.nursery.region.contains object && h.nursery.region.contains young then
      { h with nursery := h.nursery.remember object }
    else h

/-- The object that a reference leads to, if there is one. -/
def resolved (value : Option Nat) : HeapM (Option Nat) :=
  ask fun h => value.map h.memory.resolve

/-- The address of a unit of an object's tail. -/
def unitOf (object index : Nat) : HeapM Nat := fun h =>
  attempt (h.memory.unitAddr h.table object index) h

/-- Read a plain field. -/
def prim (a index : Nat) : HeapM Word := do
  let (object, info) ← direct a
  if info.prims ≤ index then throw (.violation (.primOutOfRange info.name index))
  readWord (object + 1 + index)

/-- Write a plain field. -/
def setPrim (a index : Nat) (value : Word) : HeapM Unit := do
  let (object, info) ← direct a
  if info.prims ≤ index then throw (.violation (.primOutOfRange info.name index))
  needWritable object info
  writeWord (object + 1 + index) value

/-- Read a reference field. -/
def ptr (a index : Nat) : HeapM (Option Nat) := do
  let (object, info) ← direct a
  if info.ptrs ≤ index then throw (.violation (.ptrOutOfRange info.name index))
  return Word.toRef? (← readWord (object + 1 + info.prims + index))

/-- Write a reference field. What is stored is a reference to a direct object. -/
def setPtr (a index : Nat) (value : Option Nat) : HeapM Unit := do
  let (object, info) ← direct a
  if info.ptrs ≤ index then throw (.violation (.ptrOutOfRange info.name index))
  needWritable object info
  let value ← resolved value
  writeWord (object + 1 + info.prims + index) (Word.ofRef? value)
  writeBarrier object value

/-- The number of tail units. -/
def tailLength (a : Nat) : HeapM Nat := do
  let (object, _) ← direct a
  fun h => attempt (h.memory.header object).size h

/-- Read a tail unit as a word, whatever it holds. -/
def tailWord (a index : Nat) : HeapM Word := do
  readWord (← unitOf a index)

/-- Write a tail unit that holds a word. -/
def setTailWord (a index : Nat) (value : Word) : HeapM Unit := do
  let (object, info) ← direct a
  if info.units ≠ .words then throw (.violation (.tailHoldsRefs info.name))
  needWritable object info
  writeWord (← unitOf object index) value

/-- Read a tail unit that holds a reference. -/
def tailPtr (a index : Nat) : HeapM (Option Nat) := do
  let (_, info) ← direct a
  if info.units ≠ .refs then throw (.violation (.tailHoldsWords info.name))
  return Word.toRef? (← readWord (← unitOf a index))

/-- Write a tail unit that holds a reference. -/
def setTailPtr (a index : Nat) (value : Option Nat) : HeapM Unit := do
  let (object, info) ← direct a
  if info.units ≠ .refs then throw (.violation (.tailHoldsWords info.name))
  needWritable object info
  let value ← resolved value
  writeWord (← unitOf object index) (Word.ofRef? value)
  writeBarrier object value

/-- Let every reference to one object denote another, as when a deferred computation is replaced by
its result. The two must differ. -/
def redirect (a target : Nat) : HeapM Unit := do
  let object ← ask (·.memory.resolve a)
  let target ← ask (·.memory.resolve target)
  if object = target then throw (.violation .selfRedirect)
  changeMemory (·.redirect object target)
  writeBarrier object (some target)

/-- The object that a reference denotes; its tag must have a type. -/
def validate (a : Nat) : HeapM Nat := fun h =>
  attempt (escalating (h.memory.check h.table a)) h

/-- One line on the object that a reference denotes; its tag must have a type. -/
def describe (a : Nat) : HeapM String := fun h =>
  attempt (escalating (h.memory.describe h.table a)) h

/-- Is the object that the reference denotes still in the nursery? -/
def isYoung (h : Heap) (a : Nat) : Bool := h.nursery.region.contains (h.memory.resolve a)

/-- What the tail units hold. -/
def unitKind (a : Nat) : HeapM UnitKind := do
  return (← direct a).2.units

/-! ## Roots -/

/-- Put a reference on the root stack. Gives its depth. -/
def pushRoot (a : Nat) : HeapM Nat := fun h =>
  .ok h.roots.size { h with roots := h.roots.push a }

/-- Take the reference on top of the root stack. -/
def popRoot : HeapM Nat := fun h =>
  match h.roots.pop with
  | .ok (a, roots) => .ok a { h with roots }
  | .error fault => .error fault h

/-- Make a root for an object. -/
def root (a : Nat) : HeapM Root := fun h =>
  let (r, roots) := h.roots.root a
  .ok r { h with roots }

/-- The reference at a depth of the root stack. -/
def rootAt (depth : Nat) : HeapM Nat := fun h => attempt (h.roots.get depth) h

/-- Replace the reference at a depth of the root stack. -/
def setRootAt (depth a : Nat) : HeapM Unit := fun h =>
  match h.roots.set depth a with
  | .ok roots => .ok () { h with roots }
  | .error fault => .error fault h

/-- Release a root, which must be on top. -/
def releaseRoot (r : Root) : HeapM Unit := fun h =>
  match h.roots.release r with
  | .ok roots => .ok () { h with roots }
  | .error fault => .error fault h

/-- Make `n` roots for an object and then run an operation. If it succeeds the roots are released,
latest first; if it fails they are given up. -/
def withRoots {α : Type} (a n : Nat) (operation : HeapM α) : HeapM α := fun h =>
  match (List.range n).mapM (fun _ => root a) h with
  | .error fault h => .error fault h
  | .ok roots h =>
    match operation h with
    | .ok result h => (do roots.reverse.forM releaseRoot; return result) h
    | .error fault h => .error fault { h with roots := h.roots.unwind roots }

end Heap

end Tenure
