import Tenure.Fault
import Tenure.Header

/-!
# The type table

Every object carries a tag, and the table says what the tag means: how many fields hold plain
words, how many hold references, and what the units of the tail hold. Tag 0 is reserved for the
blocks that hold out-of-line tails; the types of a program get the tags from 1 upwards. The table
is complete before the first allocation.
-/

namespace Tenure

/-- What the units of a tail hold. -/
inductive UnitKind
  /-- Plain data, which is never followed. -/
  | words
  /-- References, or null. -/
  | refs
  deriving DecidableEq, Repr

/-- The kind's name in messages. -/
def UnitKind.text : UnitKind → String
  | .words => "Words"
  | .refs => "Pointers"

/-- What the objects of one tag look like. An object of an immutable type may be written only
while it is in the nursery. -/
structure TypeInfo where
  name : String
  prims : Nat
  ptrs : Nat
  isMutable : Bool := false
  units : UnitKind := .words
  deriving DecidableEq, Repr

/-- The words between the header and the tail. -/
def TypeInfo.fields (info : TypeInfo) : Nat := info.prims + info.ptrs

/-- The type of the blocks that hold out-of-line tails. -/
def TypeInfo.tailBlock : TypeInfo := { name := "tail-block", prims := 0, ptrs := 0 }

/-- The types of a program, in the order of their tags. -/
structure TypeTable where
  registered : Array TypeInfo := #[]
  deriving DecidableEq, Repr

namespace TypeTable

/-- The number of tags with a type, the reserved one included. -/
def size (t : TypeTable) : Nat := t.registered.size + 1

/-- Does the tag have a type? -/
def contains (t : TypeTable) (tag : Nat) : Bool := tag < t.size

/-- The type of a tag. -/
def get? (t : TypeTable) : Nat → Option TypeInfo
  | 0 => some .tailBlock
  | tag + 1 => t.registered[tag]?

/-- Append a type, which gets the next tag. -/
def register (t : TypeTable) (info : TypeInfo) : TypeTable := ⟨t.registered.push info⟩

/-- The table with these types, from tag 1 upwards. -/
def ofList (types : List TypeInfo) : TypeTable := types.foldl register {}

/-- The type of a tag that was read from an object; a tag without a type shows a broken heap. -/
def lookup (t : TypeTable) (tag : Nat) : Except Fault TypeInfo :=
  match t.get? tag with
  | some info => .ok info
  | none => .error (.fatal (.heapCorruption tag t.size))

/-- A tag has a type exactly when it is below the size of the table. -/
theorem isSome_get? (t : TypeTable) (tag : Nat) : (t.get? tag).isSome = t.contains tag := by
  cases tag with
  | zero => simp [get?, contains, size]
  | succ n =>
    rw [Bool.eq_iff_iff]
    simp [get?, contains, size]

/-- Registration gives the next tag to the new type. -/
theorem get?_size_register (t : TypeTable) (info : TypeInfo) :
    (t.register info).get? t.size = some info := by
  simp [get?, register, size]

/-- Registration leaves the tags in use as they are. -/
theorem get?_register_of_lt {t : TypeTable} {tag : Nat} (info : TypeInfo) (h : tag < t.size) :
    (t.register info).get? tag = t.get? tag := by
  cases tag with
  | zero => rfl
  | succ n =>
    simp only [size] at h
    simp only [get?, register, Array.getElem?_push]
    split
    · next he => omega
    · rfl

end TypeTable

end Tenure
