import Tenure.Mutator
import Tenure.Proofs.Mutation

/-!
# Ideal heaps

An ideal heap has no memory, no indirections, no collector and no settings. Its objects are numbered
in the order of allocation and stay where they are. A program that runs on it gets the answers that
one would expect of objects that live for ever. An operation on parts that an object does not have
gives no answer, nor does an instruction that asks about the implementation of a heap.
-/

namespace Tenure

open Mutator (Operand Instr)

/-- The contents of a new object: zero, and null where references are. -/
def Contents.blank {ρ : Type} (type : TypeInfo) (size : Nat) : Contents ρ where
  prims := List.replicate type.prims 0
  ptrs := List.replicate type.ptrs none
  units := match type.units with
    | .words => .words (List.replicate size 0)
    | .refs => .refs (List.replicate size none)

/-- The number of units. -/
def Units.length {ρ : Type} : Units ρ → Nat
  | .words values => values.length
  | .refs values => values.length

/-- There are no references to rename in new contents. -/
theorem Contents.map_blank {ρ σ : Type} (φ : ρ → σ) (type : TypeInfo) (size : Nat) :
    (blank type size).map φ = blank type size := by
  simp only [blank, map, List.map_replicate, Option.map_none]
  cases type.units with
  | words => rfl
  | refs => simp only [Units.map, List.map_replicate, Option.map_none]

namespace Ideal

/-- An object, which refers to others by number. -/
structure Object where
  tag : Nat
  contents : Contents Nat

/-- What a program gets back. -/
inductive Answer
  | done
  | flag (value : Bool)
  | count (value : Nat)
  | word (value : Word)
  | rooted (number depth : Nat)
  | reference (value : Option Nat)

end Ideal

/-- A program in the middle of its work on an ideal heap. -/
structure Ideal where
  table : TypeTable
  objects : List Ideal.Object := []
  stack : RootStack Nat := {}
  registers : List (String × Option Nat) := []
  roots : Array (Option Root) := #[]

namespace Ideal

/-- The object that an operand stands for, if it is not null. -/
def refOf (t : Ideal) : Operand → Option (Option Nat)
  | .null => some none
  | .root number => do
    let root ← t.roots.getD number none
    let x ← (t.stack.get root.depth).toOption
    return some x
  | .register name => t.registers.lookup name

/-- The object that an operand stands for, which must not be null. -/
def objectOf (t : Ideal) (operand : Operand) : Option Nat := (t.refOf operand).join

/-- Replace the contents of an object. -/
def put (t : Ideal) (x : Nat) (contents : Contents Nat) : Ideal :=
  { t with objects := t.objects.modify x fun o ↦ { o with contents } }

/-- Replace every reference to one object by a reference to another. -/
def rename (t : Ideal) (φ : Nat → Nat) : Ideal :=
  { t with
    objects := t.objects.map fun o ↦ { o with contents := o.contents.map φ }
    stack := t.stack.mark φ
    registers := t.registers.map fun (name, value) ↦ (name, value.map φ) }

/-- A new object, which gets the next number. -/
def allocate (t : Ideal) (tag size : Nat) : Option (Answer × Ideal) := do
  let type ← if tag = blockTag then none else t.table.get? tag
  let object : Object := ⟨tag, .blank type size⟩
  return (.reference (some t.objects.length), { t with objects := t.objects ++ [object] })

/-- Carry out an instruction. -/
def exec (t : Ideal) : Instr → Option (Answer × Ideal)
  | .allocate tag size _ => t.allocate tag size
  | .makeRoot object => do
    let (root, stack) := t.stack.root (← t.objectOf object)
    return (.rooted t.roots.size root.depth,
      { t with stack, roots := t.roots.push (some root) })
  | .setRoot number object => do
    let x ← t.objectOf object
    let root ← t.roots.getD number none
    let stack ← (t.stack.set root.depth x).toOption
    return (.done, { t with stack })
  | .releaseRoot number => do
    let root ← t.roots.getD number none
    let stack ← (t.stack.release root).toOption
    return (.done, { t with stack, roots := t.roots.setIfInBounds number none })
  | .copy object => return (.reference (← t.refOf object), t)
  | .prim object index => do
    let o ← t.objects[← t.objectOf object]?
    return (.word (← o.contents.prims[index]?), t)
  | .setPrim object index value => do
    let x ← t.objectOf object
    let o ← t.objects[x]?
    guard (index < o.contents.prims.length)
    return (.done, t.put x { o.contents with prims := o.contents.prims.set index value })
  | .ptr object index => do
    let o ← t.objects[← t.objectOf object]?
    return (.reference (← o.contents.ptrs[index]?), t)
  | .setPtr object index value => do
    let x ← t.objectOf object
    let v ← t.refOf value
    let o ← t.objects[x]?
    guard (index < o.contents.ptrs.length)
    return (.done, t.put x { o.contents with ptrs := o.contents.ptrs.set index v })
  | .tailLength object => do
    let o ← t.objects[← t.objectOf object]?
    return (.count o.contents.units.length, t)
  | .tailWord object index => do
    let o ← t.objects[← t.objectOf object]?
    match o.contents.units with
    | .words values => return (.word (← values[index]?), t)
    | .refs values => return (.flag (← values[index]?).isSome, t)
  | .setTailWord object index value => do
    let x ← t.objectOf object
    let o ← t.objects[x]?
    match o.contents.units with
    | .words values =>
      guard (index < values.length)
      return (.done, t.put x { o.contents with units := .words (values.set index value) })
    | .refs _ => none
  | .tailPtr object index => do
    let o ← t.objects[← t.objectOf object]?
    match o.contents.units with
    | .words _ => none
    | .refs values => return (.reference (← values[index]?), t)
  | .setTailPtr object index value => do
    let x ← t.objectOf object
    let v ← t.refOf value
    let o ← t.objects[x]?
    match o.contents.units with
    | .words _ => none
    | .refs values =>
      guard (index < values.length)
      return (.done, t.put x { o.contents with units := .refs (values.set index v) })
  | .redirect object target => do
    let x ← t.objectOf object
    let y ← t.objectOf target
    guard (x ≠ y)
    return (.done, t.rename fun z ↦ if z = x then y else z)
  | .minorCollection => return (.done, t)
  | .majorCollection => return (.done, t)
  | _ => none

/-- Keep a reference in a register. -/
def keep (t : Ideal) (name : String) (value : Option Nat) : Ideal :=
  { t with registers := (name, value) :: t.registers.filter (·.1 ≠ name) }

/-- Carry out an instruction, and keep the reference in its answer in a register if one is named. -/
def run (t : Ideal) (instr : Instr) (register : Option String) : Option (Answer × Ideal) := do
  let (answer, t) ← t.exec instr
  match register, answer with
  | some name, .reference value => return (answer, t.keep name value)
  | _, _ => return (answer, t)

/-- Does the instruction make sense on an ideal heap? It does unless it asks how references or
objects are represented, or touches the root stack without a root. -/
def Covers : Instr → Bool
  | .push _ | .pop | .allocateUnder .. | .validate _ | .describe _ | .isYoung _ | .same .. |
    .audit => false
  | _ => true

end Ideal

end Tenure
