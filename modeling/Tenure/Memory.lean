import Tenure.Header
import Tenure.Memory.Pages
import Tenure.Word

/-!
# Memory

The mapped words form one block that begins at `Memory.firstAddr`. Every access is total: a read
outside the block gives zero and a write there changes nothing. Main statements: what a read
gives after a write, after clearing a range and after copying one.
-/

namespace Tenure

/-- The first mapped address. It is far from zero, so that a small number is no reference. -/
def Memory.firstAddr : Nat := 0x0a11_8c3b_5d40

/-- The words of the machine that are in use. Every one of them can be referred to, and behind them
all words are zero. -/
structure Memory where
  words : Pages
  size : Nat
  fits : Memory.firstAddr + size ≤ addressLimit
  blank : ∀ i, size ≤ i → words.get i = 0

namespace Memory

/-- No words at all. -/
def empty : Memory := ⟨{}, 0, by decide, fun i _ => Pages.get_empty i⟩

instance : Inhabited Memory := ⟨empty⟩

/-- The address behind the last mapped one. -/
def endAddr (m : Memory) : Nat := firstAddr + m.size

/-- Is there a word at the address? -/
def Mapped (m : Memory) (a : Nat) : Prop := firstAddr ≤ a ∧ a < m.endAddr

instance (m : Memory) (a : Nat) : Decidable (m.Mapped a) :=
  inferInstanceAs (Decidable (_ ∧ _))

/-- The word at an address. -/
def read (m : Memory) (a : Nat) : Word :=
  if a < firstAddr then 0 else m.words.get (a - firstAddr)

/-- Replace the word at an address. -/
def write (m : Memory) (a : Nat) (w : Word) : Memory :=
  if h : m.Mapped a then
    { m with
      words := m.words.set (a - firstAddr) w
      blank := fun i hi => by
        simp only [Mapped, endAddr] at h
        rw [Pages.get_set, if_neg (by omega)]
        exact m.blank i hi }
  else m

/-- The header at an address. -/
def header (m : Memory) (a : Nat) : Header := ⟨m.read a⟩

/-- Replace the header at an address. -/
def writeHeader (m : Memory) (a : Nat) (h : Header) : Memory := m.write a h.word

/-- Replace the word at an address by a reference. -/
def writeRef (m : Memory) (a target : Nat) : Memory := m.write a (Word.ofAddr target)

/-- Zero the `n` words from address `a`. -/
def clear (m : Memory) (a : Nat) : Nat → Memory
  | 0 => m
  | n + 1 => (m.write a 0).clear (a + 1) n

/-- Copy the `n` words from address `src` to address `dst`, lowest first. -/
def copy (m : Memory) (src dst : Nat) : Nat → Memory
  | 0 => m
  | n + 1 => (m.write dst (m.read src)).copy (src + 1) (dst + 1) n

/-- Map `n` more words, all zero, if the address space has room for them. -/
def extend? (m : Memory) (n : Nat) : Option Memory :=
  if h : m.endAddr + n ≤ addressLimit then
    some { m with
      size := m.size + n
      fits := by
        simp only [endAddr] at h
        omega
      blank := fun i hi => m.blank i (by omega) }
  else none

/-! ## What a read gives -/

/-- Memory that is not mapped reads as zero. -/
theorem read_of_not_mapped {m : Memory} {a : Nat} (h : ¬ m.Mapped a) : m.read a = 0 := by
  simp only [Mapped, endAddr] at h
  simp only [read]
  split
  · rfl
  · exact m.blank _ (by omega)

/-- A write maps no memory. -/
@[simp] theorem size_write (m : Memory) (a : Nat) (w : Word) : (m.write a w).size = m.size := by
  simp only [write]
  split <;> rfl

/-- A write leaves the end of memory where it is. -/
@[simp] theorem endAddr_write (m : Memory) (a : Nat) (w : Word) :
    (m.write a w).endAddr = m.endAddr := by
  simp [endAddr]

/-- A reference to a mapped address leads back to it. -/
theorem Mapped.toAddr_ofAddr {m : Memory} {a : Nat} (h : m.Mapped a) :
    Word.toAddr (Word.ofAddr a) = a :=
  Word.toAddr_ofAddr (Nat.lt_of_lt_of_le h.2 m.fits)

/-- A reference to a mapped address is not null. -/
theorem Mapped.ofAddr_ne_null {m : Memory} {a : Nat} (h : m.Mapped a) :
    Word.ofAddr a ≠ Word.null := by
  rw [Ne, Word.ofAddr_eq_null_iff (Nat.lt_of_lt_of_le h.2 m.fits)]
  have := h.1
  simp only [firstAddr] at this
  omega

/-- Read as an optional reference, a reference to a mapped address is present. -/
theorem Mapped.toRef?_ofAddr {m : Memory} {a : Nat} (h : m.Mapped a) :
    Word.toRef? (Word.ofAddr a) = some a := by
  rw [Word.toRef?, if_neg h.ofAddr_ne_null, h.toAddr_ofAddr]

/-- A read sees the last write to its address. -/
theorem read_write (m : Memory) (a b : Nat) (w : Word) :
    (m.write a w).read b = if a = b ∧ m.Mapped a then w else m.read b := by
  by_cases hm : m.Mapped a
  · have ha := hm.1
    rw [write, dif_pos hm]
    simp only [read, hm, and_true]
    by_cases hb : b < firstAddr
    · rw [if_pos hb, if_pos hb, if_neg (by omega)]
    · rw [if_neg hb, if_neg hb, Pages.get_set]
      by_cases hab : a = b
      · rw [if_pos hab, if_pos (by rw [hab])]
      · rw [if_neg hab, if_neg (by omega)]
  · rw [write, dif_neg hm, if_neg (fun h => hm h.2)]

/-- A write is seen at no other address. -/
theorem read_write_of_ne {m : Memory} {a b : Nat} (w : Word) (h : a ≠ b) :
    (m.write a w).read b = m.read b := by
  rw [read_write, if_neg (fun hab => h hab.1)]

/-- A mapped address reads what was written to it. -/
theorem read_write_self {m : Memory} {a : Nat} (w : Word) (h : m.Mapped a) :
    (m.write a w).read a = w := by
  rw [read_write, if_pos ⟨rfl, h⟩]

/-- What is mapped after a write was mapped before. -/
@[simp] theorem mapped_write {m : Memory} {a b : Nat} {w : Word} :
    (m.write a w).Mapped b ↔ m.Mapped b := by
  simp [Mapped]

/-- Clearing words leaves the end of memory where it is. -/
@[simp] theorem endAddr_clear (m : Memory) (a n : Nat) : (m.clear a n).endAddr = m.endAddr := by
  induction n generalizing m a with
  | zero => rfl
  | succ n ih => rw [clear, ih, endAddr_write]

/-- Copying words leaves the end of memory where it is. -/
@[simp] theorem endAddr_copy (m : Memory) (src dst n : Nat) :
    (m.copy src dst n).endAddr = m.endAddr := by
  induction n generalizing m src dst with
  | zero => rfl
  | succ n ih => rw [copy, ih, endAddr_write]

/-- After clearing, the range reads zero and all else is as before. -/
theorem read_clear (m : Memory) (a n b : Nat) :
    (m.clear a n).read b = if a ≤ b ∧ b < a + n then 0 else m.read b := by
  induction n generalizing m a with
  | zero => rw [clear, if_neg (by omega)]
  | succ n ih =>
    rw [clear, ih, read_write]
    by_cases hab : a = b
    · subst hab
      rw [if_neg (by omega), if_pos (c := a ≤ a ∧ _) (by omega)]
      split
      · rfl
      · next h => exact read_of_not_mapped fun hm => h ⟨rfl, hm⟩
    · rw [if_neg (c := a = b ∧ m.Mapped a) (fun h => hab h.1)]
      by_cases hr : a ≤ b ∧ b < a + (n + 1)
      · rw [if_pos (by omega), if_pos hr]
      · rw [if_neg (by omega), if_neg hr]

/-- After copying into mapped words apart from the source, the destination reads what the source
read, and all else is as before. -/
theorem read_copy {m : Memory} {src dst n : Nat} (b : Nat)
    (hd : ∀ i < n, m.Mapped (dst + i)) (hs : src + n ≤ dst ∨ dst + n ≤ src) :
    (m.copy src dst n).read b =
      if dst ≤ b ∧ b < dst + n then m.read (src + (b - dst)) else m.read b := by
  induction n generalizing m src dst with
  | zero => rw [copy, if_neg (by omega)]
  | succ n ih =>
    have hd' : ∀ i < n, (m.write dst (m.read src)).Mapped (dst + 1 + i) := by
      intro i hi
      rw [mapped_write, Nat.add_assoc, Nat.add_comm 1 i]
      exact hd (i + 1) (by omega)
    rw [copy, ih hd' (by omega)]
    by_cases hab : dst = b
    · subst hab
      rw [if_neg (by omega), if_pos (by omega), Nat.sub_self, Nat.add_zero]
      exact read_write_self _ (hd 0 (by omega))
    · by_cases hr : dst ≤ b ∧ b < dst + (n + 1)
      · rw [if_pos (by omega), if_pos hr, read_write_of_ne _ (by omega)]
        congr 1
        omega
      · rw [if_neg (by omega), if_neg hr, read_write_of_ne _ hab]

/-- New words read zero and the old ones are kept. -/
theorem read_extend? {m m' : Memory} {n : Nat} (h : m.extend? n = some m') (a : Nat) :
    m'.read a = m.read a := by
  simp only [extend?] at h
  split at h
  · cases h
    rfl
  · cases h

end Memory

end Tenure
