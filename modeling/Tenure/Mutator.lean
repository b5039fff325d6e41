import Tenure.Heap.Access
import Tenure.Heap.Audit
import Tenure.Heap.Collect

/-!
# Programs on a heap

A program, the mutator, names objects by roots and by registers. A root keeps its object through
collections. A register only keeps the reference that it was given, which is stale from the next
collection on. An instruction with a stale operand does not run, so whatever a program does, it
works with live references only.
-/

namespace Tenure

namespace Mutator

/-- The name of an object. -/
inductive Operand
  | null
  /-- A root, by its number in the order of creation. -/
  | root (number : Nat)
  | register (name : String)
  deriving DecidableEq, Repr

/-- What a program can do with its heap. -/
inductive Instr
  /-- Allocate an object; without a layout the settings decide on it. -/
  | allocate (tag size : Nat) (tail : Option TailLayout)
  | makeRoot (object : Operand)
  | setRoot (number : Nat) (object : Operand)
  | releaseRoot (number : Nat)
  /-- Put a reference on the root stack without a root for it. -/
  | push (object : Operand)
  | pop
  | copy (object : Operand)
  /-- Allocate an object of type `tag` while `count` further roots hold the operand. -/
  | allocateUnder (object : Operand) (count tag : Nat)
  | prim (object : Operand) (index : Nat)
  | setPrim (object : Operand) (index : Nat) (value : Word)
  | ptr (object : Operand) (index : Nat)
  | setPtr (object : Operand) (index : Nat) (value : Operand)
  | tailLength (object : Operand)
  /-- Read a tail unit; of a reference this only tells whether there is one. -/
  | tailWord (object : Operand) (index : Nat)
  | setTailWord (object : Operand) (index : Nat) (value : Word)
  | tailPtr (object : Operand) (index : Nat)
  | setTailPtr (object : Operand) (index : Nat) (value : Operand)
  | redirect (object target : Operand)
  | validate (object : Operand)
  | describe (object : Operand)
  | isYoung (object : Operand)
  /-- Compare two references without following indirections. -/
  | same (first second : Operand)
  | minorCollection
  | majorCollection
  | audit
  deriving DecidableEq, Repr

/-- What a program gets back. -/
inductive Reply
  | done
  | flag (value : Bool)
  | count (value : Nat)
  | word (value : Word)
  | text (value : String)
  | rooted (number depth : Nat)
  | allocated (object : Nat) (description : String)
  | popped (object : Nat)
  | reference (value : Option Nat)
  /-- An object, and whether the operand was a reference to just it. -/
  | found (object : Nat) (direct : Bool)
  deriving DecidableEq, Repr

/-- The reference that a program may keep of a reply. -/
def Reply.reference? : Reply → Option (Option Nat)
  | .allocated object _ => some (some object)
  | .popped object => some (some object)
  | .reference value => some value
  | .found object _ => some (some object)
  | _ => none

/-- Why an instruction has no reply. -/
inductive Stop
  | fault (fault : Fault)
  /-- An operand was obtained before the last collection. -/
  | stale
  /-- An operand is null where an object is needed. -/
  | nullRef
  /-- An operand names a register that was never set or a root that is gone. -/
  | unknownName
  deriving DecidableEq, Repr

/-- A reference, with the number of nursery epochs there had been when it was obtained. -/
structure Register where
  value : Option Nat
  epochs : Nat
  deriving DecidableEq, Repr

/-- A program in the middle of its work. -/
structure Session where
  heap : Heap
  registers : List (String × Register) := []
  /-- The roots in the order of creation, where those given up are gone. -/
  roots : Array (Option Root) := #[]

/-- A step of a program. One that stops leaves what it did so far. -/
abbrev SessionM := EStateM Stop Session

/-- Run an operation of the heap. -/
def onHeap {α : Type} (operation : HeapM α) : SessionM α := fun ⟨heap, registers, roots⟩ =>
  match operation heap with
  | .ok a heap => .ok a ⟨heap, registers, roots⟩
  | .error fault heap => .error (.fault fault) ⟨heap, registers, roots⟩

/-- The root of a number. -/
def rootOf (number : Nat) : SessionM Root := fun s =>
  match s.roots.getD number none with
  | some root => .ok root s
  | none => .error .unknownName s

/-- The reference in a register. Null is never stale. -/
def registerOf (name : String) : SessionM (Option Nat) := fun s =>
  match s.registers.lookup name with
  | none => .error .unknownName s
  | some ⟨none, _⟩ => .ok none s
  | some ⟨some a, epochs⟩ =>
    if epochs = s.heap.statistics.minor then .ok (some a) s else .error .stale s

/-- The reference that an operand stands for. -/
def refOf : Operand → SessionM (Option Nat)
  | .null => return none
  | .root number => do return some (← onHeap (Heap.rootAt (← rootOf number).depth))
  | .register name => registerOf name

/-- The reference that an operand stands for, which must not be null. -/
def objectOf (operand : Operand) : SessionM Nat := do
  match ← refOf operand with
  | some a => return a
  | none => throw .nullRef

/-- Keep a reference in a register. -/
def keep (name : String) (value : Option Nat) : SessionM Unit := fun s =>
  let register := ⟨value, s.heap.statistics.minor⟩
  .ok () { s with registers := (name, register) :: s.registers.filter (·.1 ≠ name) }

/-- Run an instruction. Its operands are looked up first, from left to right. -/
def exec : Instr → SessionM Reply
  | .allocate tag size none => do
    let a ← onHeap (Heap.allocate tag size)
    return .allocated a (← onHeap (Heap.describe a))
  | .allocate tag size (some tail) => do
    let a ← onHeap (Heap.allocateWith tag size tail)
    return .allocated a (← onHeap (Heap.describe a))
  | .makeRoot object => do
    let root ← onHeap (Heap.root (← objectOf object))
    fun s => .ok (.rooted s.roots.size root.depth) { s with roots := s.roots.push (some root) }
  | .setRoot number object => do
    let a ← objectOf object
    onHeap (Heap.setRootAt (← rootOf number).depth a)
    return .done
  | .releaseRoot number => do
    let root ← rootOf number
    modify fun s => { s with roots := s.roots.setIfInBounds number none }
    onHeap (Heap.releaseRoot root)
    return .done
  | .push object => return .count (← onHeap (Heap.pushRoot (← objectOf object)))
  | .pop => return .popped (← onHeap Heap.popRoot)
  | .copy object => return .reference (← refOf object)
  | .allocateUnder object count tag => do
    let _ ← onHeap (Heap.withRoots (← objectOf object) count (Heap.allocate tag 0))
    return .done
  | .prim object index => return .word (← onHeap (Heap.prim (← objectOf object) index))
  | .setPrim object index value => do
    onHeap (Heap.setPrim (← objectOf object) index value)
    return .done
  | .ptr object index => return .reference (← onHeap (Heap.ptr (← objectOf object) index))
  | .setPtr object index value => do
    let a ← objectOf object
    onHeap (Heap.setPtr a index (← refOf value))
    return .done
  | .tailLength object => return .count (← onHeap (Heap.tailLength (← objectOf object)))
  | .tailWord object index => do
    let a ← objectOf object
    let w ← onHeap (Heap.tailWord a index)
    match ← onHeap (Heap.unitKind a) with
    | .words => return .word w
    | .refs => return .flag (Word.toRef? w).isSome
  | .setTailWord object index value => do
    onHeap (Heap.setTailWord (← objectOf object) index value)
    return .done
  | .tailPtr object index => return .reference (← onHeap (Heap.tailPtr (← objectOf object) index))
  | .setTailPtr object index value => do
    let a ← objectOf object
    onHeap (Heap.setTailPtr a index (← refOf value))
    return .done
  | .redirect object target => do
    let a ← objectOf object
    onHeap (Heap.redirect a (← objectOf target))
    return .done
  | .validate object => do
    let a ← objectOf object
    let found ← onHeap (Heap.validate a)
    return .found found (found = a)
  | .describe object => return .text (← onHeap (Heap.describe (← objectOf object)))
  | .isYoung object => do
    let a ← objectOf object
    return .flag (← onHeap (Heap.ask (·.isYoung a)))
  | .same first second => do
    let a ← refOf first
    return .flag (a = (← refOf second))
  | .minorCollection => do
    onHeap Heap.minorCollection
    return .done
  | .majorCollection => do
    onHeap Heap.majorCollection
    return .done
  | .audit => return .count (← onHeap fun h => attempt h.audit h)

/-- Run an instruction, and keep the reference of its reply in a register if one is named. -/
def run (instr : Instr) (register : Option String) : SessionM Reply := do
  let reply ← exec instr
  match register, reply.reference? with
  | some name, some value => keep name value
  | _, _ => pure ()
  return reply

end Mutator

end Tenure
