import Tenure.Memory
import Tenure.TypeTable

/-!
# Object layout

An object is a header word, its plain fields, its reference fields, and then either the units of
its tail or one word that refers to a block with them. A block is an object of the reserved tag
with its units inline. With padding, owner and block each take an even number of words. The size
of an allocation is worked out, and its parts are checked, before any memory is touched.
-/

namespace Tenure

/-- A word count, rounded up to an even one if objects are padded. -/
def padded (padding : Bool) (words : Nat) : Nat :=
  if padding then words + words % 2 else words

/-- The words of an object, without those of its block. -/
def TypeInfo.words (info : TypeInfo) (size : Nat) (tail : TailLayout) (padding : Bool) : Nat :=
  match tail with
  | .inline => padded padding (1 + info.fields + size)
  | .outOfLine => padded padding (1 + info.fields + 1)

/-- The words of the object at an address, as its own header gives them. -/
def Memory.extent (m : Memory) (table : TypeTable) (padding : Bool) (a : Nat) :
    Except Fault Nat := do
  let h := m.header a
  let info ← table.lookup (← h.tag)
  return info.words (← h.size) (← h.tail) padding

/-- The sizes of one allocation. -/
structure Footprint where
  tag : Nat
  size : Nat
  tail : TailLayout
  /-- Plain and reference fields together. -/
  fields : Nat
  /-- The words of the object itself. -/
  ownerWords : Nat
  /-- The words of the block, if there is one. -/
  blockWords : Nat
  deriving DecidableEq, Repr

/-- The sizes of an object of type `tag` with `size` tail units. Blocks are not allocated on their
own. An unknown tag is reported before a tail that is too long. -/
def TypeTable.footprint (table : TypeTable) (tag size : Nat) (tail : TailLayout)
    (padding : Bool) : Except Fault Footprint :=
  match if tag = blockTag then none else table.get? tag with
  | none => .error (.refused (.unknownTag tag))
  | some info =>
    if maxTailSize < size then
      .error (.refused (.capacityOverflow size maxTailSize))
    else .ok {
      tag, size, tail
      fields := info.fields
      ownerWords := info.words size tail padding
      blockWords := match tail with
        | .inline => 0
        | .outOfLine => padded padding (1 + size) }

namespace Footprint

/-- The words of the whole allocation. -/
def words (f : Footprint) : Nat := f.ownerWords + f.blockWords

/-- The bytes of the whole allocation. -/
def bytes (f : Footprint) : Nat := f.words * wordBytes

/-- Make an object of zeroed words from address `a` on: write its header, and for a tail in a
block the block's header behind the object and the reference to it. -/
def place (f : Footprint) (m : Memory) (a : Nat) : Memory :=
  let m := m.writeHeader a (.pack f.tag f.size f.tail)
  match f.tail with
  | .inline => m
  | .outOfLine =>
    let block := a + f.ownerWords
    (m.writeHeader block (.pack blockTag f.size .inline)).writeRef (a + 1 + f.fields) block

end Footprint

/-- Padding gives the least even count that is not smaller. -/
theorem padded_true (words : Nat) :
    padded true words % 2 = 0 ∧ words ≤ padded true words ∧ padded true words ≤ words + 1 := by
  simp only [padded, if_true]
  omega

/-- Padding takes no words away. -/
theorem le_padded (padding : Bool) (words : Nat) : words ≤ padded padding words := by
  cases padding <;> simp [padded]

/-- An object has at least its header. -/
theorem TypeInfo.words_pos (info : TypeInfo) (size : Nat) (tail : TailLayout) (padding : Bool) :
    0 < info.words size tail padding := by
  cases tail <;> exact Nat.lt_of_lt_of_le (by omega) (le_padded _ _)

end Tenure
