import Tenure.Object.Tail

/-!
# The contents of an object

The contents of an object are what a program can read from it: its plain fields, its reference
fields and the units of its tail, wherever they are stored. How a reference is written down is left
open, so the same type serves for objects in memory, where it is an address, and for pictures of a
heap without addresses.
-/

namespace Tenure

/-- The units of a tail, with references of type `ρ`. -/
inductive Units (ρ : Type)
  | words (values : List Word)
  | refs (values : List (Option ρ))
  deriving DecidableEq, Repr

/-- What can be read from an object, with references of type `ρ`. -/
structure Contents (ρ : Type) where
  prims : List Word
  ptrs : List (Option ρ)
  units : Units ρ
  deriving DecidableEq, Repr

/-- Visit the references among tail units in order, and replace each by what the visitor gives. -/
def Units.traverse {ρ σ : Type} {m : Type → Type} [Monad m] (visit : ρ → m σ) :
    Units ρ → m (Units σ)
  | .words values => return .words values
  | .refs values => return .refs (← values.mapM (·.mapM visit))

/-- Visit the references in order, the fields before the tail, and replace each by what the visitor
gives. -/
def Contents.traverse {ρ σ : Type} {m : Type → Type} [Monad m] (visit : ρ → m σ)
    (c : Contents ρ) : m (Contents σ) := do
  let ptrs ← c.ptrs.mapM (·.mapM visit)
  return ⟨c.prims, ptrs, ← c.units.traverse visit⟩

namespace Memory

/-- The `count` words from address `a` on. -/
def wordsAt (m : Memory) (a count : Nat) : List Word := (List.range' a count).map m.read

/-- The `count` words from address `a` on, as references. -/
def refsAt (m : Memory) (a count : Nat) : List (Option Nat) :=
  (m.wordsAt a count).map Word.toRef?

/-- The contents of the direct object at `a`, if it has a type and is no block. References are
addresses as they are stored. -/
def contents? (m : Memory) (table : TypeTable) (a : Nat) : Option (Contents Nat) :=
  let h := m.header a
  match if h.tagBits = blockTag then none else table.get? h.tagBits with
  | none => none
  | some info =>
    let behind := a + 1 + info.fields
    let units := match h.tailBits with
      | .inline => behind
      | .outOfLine => Word.toAddr (m.read behind) + 1
    some {
      prims := m.wordsAt (a + 1) info.prims
      ptrs := m.refsAt (a + 1 + info.prims) info.ptrs
      units := match info.units with
        | .words => .words (m.wordsAt units h.sizeBits)
        | .refs => .refs (m.refsAt units h.sizeBits) }

end Memory

end Tenure
