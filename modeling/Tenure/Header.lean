import Tenure.Fault
import Tenure.Word

/-!
# Object headers

An object begins with one header word. A word with bit 0 set is an indirection: the object has
moved, or stands for another one, and the remaining bits are the reference to follow. Any other
word is direct and holds, from bit 1 upwards, the tail size (12 bits), the tail layout (one bit,
set for an inline tail) and the tag (50 bits). Main statements: `decode` inverts `pack` and
`forward`, and every word is the encoding of what it says.
-/

namespace Tenure

/-- Where the tail of an object is stored. -/
inductive TailLayout
  /-- In a block of its own, to which one word of the object refers. -/
  | outOfLine
  /-- Behind the fields. -/
  | inline
  deriving DecidableEq, Repr

/-- The layout's name in messages. -/
def TailLayout.text : TailLayout → String
  | .outOfLine => "OutOfLine"
  | .inline => "Inline"

/-- The layout as a header bit. -/
def TailLayout.bit : TailLayout → Nat
  | .outOfLine => 0
  | .inline => 1

/-- The most units that a header can count. -/
def maxTailSize : Nat := 4095

/-- The largest tag that a header can hold. -/
def maxTag : Nat := 1 <<< 50 - 1

/-- The tag of the blocks that hold out-of-line tails. -/
def blockTag : Nat := 0

/-- A header word. -/
structure Header where
  word : Word
  deriving DecidableEq, Repr

/-- What a header says. -/
inductive Header.Meaning
  | direct (tag size : Nat) (tail : TailLayout)
  | indirection (target : Word)
  deriving DecidableEq, Repr

namespace Header

/-- The encoding of the three direct fields, each of which must fit. -/
def pack (tag size : Nat) (tail : TailLayout) : Header :=
  ⟨UInt64.ofNat (tag <<< 14 + tail.bit <<< 13 + size <<< 1)⟩

/-- The encoding of an indirection to an even `target`. -/
def forward (target : Word) : Header := ⟨target + 1⟩

/-- Is bit 0 set? -/
def isIndirection (h : Header) : Bool := h.word.toNat % 2 = 1

/-- The tag bits. -/
def tagBits (h : Header) : Nat := h.word.toNat >>> 14

/-- The size bits. -/
def sizeBits (h : Header) : Nat := (h.word.toNat >>> 1) % (maxTailSize + 1)

/-- The layout bit. -/
def tailBits (h : Header) : TailLayout :=
  if (h.word.toNat >>> 13) % 2 = 1 then .inline else .outOfLine

/-- What the header says. -/
def decode (h : Header) : Meaning :=
  if h.isIndirection then .indirection (h.word - 1)
  else .direct h.tagBits h.sizeBits h.tailBits

/-- The header that says this, for fields that fit and an even target. -/
def Meaning.encode : Meaning → Header
  | .direct tag size tail => pack tag size tail
  | .indirection target => forward target

/-- A misuse of the encoding ends the program. -/
def misuse {α : Type} (what : HeaderMisuse) : Except Fault α :=
  .error (.fatal (.encodingMisuse what))

/-- Go on with a direct header, for the sake of `field`. -/
def needDirect (h : Header) (field : HeaderField) : Except Fault Unit :=
  if h.isIndirection then misuse (.fieldOfIndirection field) else .ok ()

/-- The tag of a direct header. -/
def tag (h : Header) : Except Fault Nat := do
  h.needDirect .tag
  return h.tagBits

/-- The tail size of a direct header. -/
def size (h : Header) : Except Fault Nat := do
  h.needDirect .size
  return h.sizeBits

/-- The tail layout of a direct header. -/
def tail (h : Header) : Except Fault TailLayout := do
  h.needDirect .tail
  return h.tailBits

/-- The reference that an indirection holds. -/
def target (h : Header) : Except Fault Word :=
  if h.isIndirection then .ok (h.word - 1) else misuse .targetOfDirect

/-- The word with only a tag. -/
def tagWord (tag : Nat) : Except Fault Word :=
  if maxTag < tag then misuse .tagTooLarge else .ok (pack tag 0 .outOfLine).word

/-- Replace the tail size of a direct header. -/
def setSize (h : Header) (size : Nat) : Except Fault Header := do
  h.needDirect .newSize
  if maxTailSize < size then throw (.fatal (.capacityOverflow size maxTailSize))
  return pack h.tagBits size h.tailBits

/-- Replace the tail layout of a direct header. -/
def setTail (h : Header) (tail : TailLayout) : Except Fault Header := do
  h.needDirect .newTail
  return pack h.tagBits h.sizeBits tail

/-- A direct header; a tag that does not fit is reported before a size that does not. -/
def direct (tag size : Nat) (tail : TailLayout) : Except Fault Header := do
  let h : Header := ⟨← tagWord tag⟩
  (← h.setSize size).setTail tail

/-- An indirection to `target`, which must be even. -/
def indirection (target : Word) : Except Fault Header :=
  if target.toNat % 2 = 1 then misuse .unalignedTarget else .ok (forward target)

/-- Grow the tail size; a sum that does not fit is handed back to the caller. The reported sum is
cut off at the largest word. -/
def grow (h : Header) (units : Nat) : Except Fault Header := do
  let sum := (← h.size) + units
  if maxTailSize < sum then
    throw (.refused (.capacityOverflow (min sum (UInt64.size - 1)) maxTailSize))
  h.setSize sum

/-- Grow the tail size or end the program. -/
def growOrDie (h : Header) (units : Nat) : Except Fault Header := escalating (h.grow units)

/-- The header as diagnostics show it. -/
def text (h : Header) : String :=
  match h.decode with
  | .indirection target =>
    "Header(IND 0x" ++ String.ofList (Nat.toDigits 16 target.toNat) ++ ")"
  | .direct tag size tail => s!"Header(tag {tag}, size {size}, {tail.text})"

/-- The encoded word in arithmetic. -/
theorem toNat_word_pack {tag size : Nat} (tail : TailLayout) (ht : tag ≤ maxTag)
    (hs : size ≤ maxTailSize) :
    (pack tag size tail).word.toNat = tag <<< 14 + tail.bit <<< 13 + size <<< 1 := by
  simp only [maxTag, maxTailSize] at ht hs
  cases tail <;> simp only [pack, TailLayout.bit, UInt64.toNat_ofNat'] <;> omega

/-- Fields that fit are read back. -/
theorem decode_pack {tag size : Nat} (tail : TailLayout) (ht : tag ≤ maxTag)
    (hs : size ≤ maxTailSize) : (pack tag size tail).decode = .direct tag size tail := by
  have hw := toNat_word_pack tail ht hs
  simp only [maxTag, maxTailSize] at ht hs
  cases tail <;>
    simp only [decode, isIndirection, tagBits, sizeBits, tailBits, hw, TailLayout.bit,
      maxTailSize] <;>
    split <;> simp_all <;> omega

/-- An indirection leads to its target. -/
theorem decode_forward {target : Word} (h : target.toNat % 2 = 0) :
    (forward target).decode = .indirection target := by
  have hlt := target.toNat_lt
  have hw : (forward target).word.toNat = target.toNat + 1 := by
    simp only [forward, UInt64.toNat_add, UInt64.reduceToNat]
    omega
  have hi : (forward target).isIndirection = true := by
    simp only [isIndirection, hw, decide_eq_true_eq]
    omega
  rw [decode, if_pos hi, forward, UInt64.add_sub_cancel]

/-- The size bits never exceed the largest size. -/
theorem sizeBits_le (h : Header) : h.sizeBits ≤ maxTailSize := by
  simp only [sizeBits, maxTailSize]
  omega

/-- The tag bits never exceed the largest tag. -/
theorem tagBits_le (h : Header) : h.tagBits ≤ maxTag := by
  have hlt := h.word.toNat_lt
  simp only [tagBits, maxTag]
  omega

/-- Every header is the encoding of what it says. -/
theorem encode_decode (h : Header) : h.decode.encode = h := by
  have hlt := h.word.toNat_lt
  obtain ⟨w⟩ := h
  simp only at hlt
  by_cases hi : w.toNat % 2 = 1
  · have hd : (⟨w⟩ : Header).decode = .indirection (w - 1) := by
      simp [decode, isIndirection, hi]
    rw [hd]
    simp only [Meaning.encode, forward, UInt64.sub_add_cancel]
  · have hd : (⟨w⟩ : Header).decode = .direct (⟨w⟩ : Header).tagBits (⟨w⟩ : Header).sizeBits
        (⟨w⟩ : Header).tailBits := by
      simp [decode, isIndirection, hi]
    rw [hd]
    simp only [Meaning.encode, pack, Header.mk.injEq, ← UInt64.toNat_inj, UInt64.toNat_ofNat',
      tagBits, sizeBits, tailBits, maxTailSize]
    split <;> simp only [TailLayout.bit] <;> omega

end Header

end Tenure
