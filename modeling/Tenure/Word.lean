/-!
# Words and addresses

A machine word holds 64 bits. An address is the number of a word, counted from the start of the
address space: the word at address `a` lies at byte `8 * a`, and a reference to it is the word that
holds this byte number. Main statement: below `addressLimit` a reference leads back to its address.
-/

namespace Tenure

/-- A machine word: 64 bits, unsigned. -/
abbrev Word := UInt64

/-- The bytes of one word. -/
def wordBytes : Nat := 8

/-- The addresses below this limit are those whose byte number fits a word. -/
def addressLimit : Nat := 1 <<< 61

/-- The reference to address `a`. -/
def Word.ofAddr (a : Nat) : Word := UInt64.ofNat (wordBytes * a)

/-- The address that a reference leads to. -/
def Word.toAddr (w : Word) : Nat := w.toNat / wordBytes

/-- The absent reference. -/
def Word.null : Word := 0

/-- Read a field as a reference; the null word is the absent one. -/
def Word.toRef? (w : Word) : Option Nat :=
  if w = Word.null then none else some (Word.toAddr w)

/-- Write an optional reference into a field. -/
def Word.ofRef? : Option Nat → Word
  | none => Word.null
  | some a => Word.ofAddr a

/-- The byte number of an address below the limit is kept in full. -/
theorem Word.toNat_ofAddr {a : Nat} (h : a < addressLimit) :
    (Word.ofAddr a).toNat = 8 * a := by
  simp only [addressLimit] at h
  simp only [Word.ofAddr, wordBytes, UInt64.toNat_ofNat']
  omega

/-- A reference leads back to the address it was made from. -/
theorem Word.toAddr_ofAddr {a : Nat} (h : a < addressLimit) :
    Word.toAddr (Word.ofAddr a) = a := by
  simp only [Word.toAddr, Word.toNat_ofAddr h, wordBytes]
  omega

/-- The null word is no reference. -/
theorem Word.toRef?_null : Word.null.toRef? = none := rfl

/-- A present reference leads to its address. -/
theorem Word.toAddr_of_toRef? {w : Word} {a : Nat} (h : w.toRef? = some a) : w.toAddr = a := by
  simp only [Word.toRef?] at h
  split at h
  · cases h
  · exact Option.some.inj h

/-- Only the null word is no reference. -/
theorem Word.eq_null_of_toRef? {w : Word} (h : w.toRef? = none) : w = Word.null := by
  simp only [Word.toRef?] at h
  split at h
  · assumption
  · cases h

/-- Of the addresses below the limit only the first has the null word as its reference. -/
theorem Word.ofAddr_eq_null_iff {a : Nat} (h : a < addressLimit) :
    Word.ofAddr a = Word.null ↔ a = 0 := by
  rw [← UInt64.toNat_inj, Word.toNat_ofAddr h]
  simp only [Word.null, UInt64.toNat_zero]
  omega

end Tenure
