import Tenure.Object.Chain
import Tenure.Object.Layout
import Tenure.Object.Slots
import Tenure.Region

/-!
# Evacuation

One copying pass out of a source region to the end of a target region. An object of the source is
copied when it is first met, and its header there becomes an indirection to the copy, so every
later reference to it is led to the same copy. Objects elsewhere stay where they are. References
are always followed through indirections first, so a slot that is visited refers to a direct
object afterwards. A pass that has copied its starting points scans the copies in the order they
were made, which copies what they refer to, until the scan meets the cursor.
-/

namespace Tenure

/-- What stays fixed during a pass. -/
structure Evacuation where
  table : TypeTable
  source : Region
  /-- Round object sizes up to an even number of words. -/
  padding : Bool
  /-- Store tails inline in the copies. -/
  compact : Bool

/-- What a pass has copied. -/
structure Tally where
  objects : Nat := 0
  words : Nat := 0
  deriving DecidableEq, Repr

/-- What has been copied, in bytes. -/
def Tally.bytes (t : Tally) : Nat := t.words * wordBytes

instance : Add Tally := ⟨fun s t => ⟨s.objects + t.objects, s.words + t.words⟩⟩

/-- What changes during a pass. -/
structure CopyState where
  memory : Memory
  target : Region
  tally : Tally := {}

/-- A step of a pass. A step that fails leaves what it did so far. -/
abbrev CopyM := EStateM Fault CopyState

/-- A fault of a part that changes nothing. -/
def attempt {σ α : Type} : Except Fault α → EStateM Fault σ α
  | .ok a => fun s => .ok a s
  | .error fault => fun s => .error fault s

namespace CopyM

/-- The word at an address. -/
def load (a : Nat) : CopyM Word := fun s => .ok (s.memory.read a) s

/-- Evaluate on the memory. -/
def inspect {α : Type} (f : Memory → Except Fault α) : CopyM α := fun s =>
  attempt (f s.memory) s

/-- Change the memory. -/
@[inline] def change (f : Memory → Memory) : CopyM Unit := fun s =>
  .ok () { s with memory := f s.memory }

/-- Take the next words of the target. -/
def claim (words : Nat) : CopyM Nat := fun s =>
  match s.target.bump words with
  | some (a, target) => .ok a { s with target }
  | none => .error (.fatal (.exhausted (words * wordBytes) s.target.freeBytes)) s

/-- Count one more object. -/
def count (words : Nat) : CopyM Unit := fun s =>
  .ok () { s with tally := s.tally + ⟨1, words⟩ }

end CopyM

namespace Evacuation

open CopyM

/-- Copy a direct object of the source, and leave an indirection to the copy behind. In a
compacting pass the units of a block move in behind the fields of their owner. -/
def copyObject (e : Evacuation) (object tag size : Nat) (tail : TailLayout) : CopyM Nat := do
  let info ← attempt (e.table.lookup tag)
  let fixed := 1 + info.fields
  let inlining : Bool := tail = .outOfLine ∧ e.compact
  let words := info.words size (if inlining then .inline else tail) e.padding
  let copy ← claim words
  if inlining then
    let block := Word.toAddr (← load (object + fixed))
    change fun m => (((m.copy object copy fixed).copy (block + 1) (copy + fixed) size).writeHeader
      copy (.pack tag size .inline))
  else
    change fun m => m.copy object copy words
  change fun m => m.redirect object copy
  count words
  return copy

/-- The place of the object that a reference denotes once the pass has moved it. -/
def evacuate (e : Evacuation) (a : Nat) : CopyM Nat := fun s =>
  let object := s.memory.resolve a
  if e.source.contains object then
    let h := s.memory.header object
    e.copyObject object h.tagBits h.sizeBits h.tailBits s
  else .ok object s

/-- Evacuate what a slot refers to, if anything, and update the slot. -/
def updateSlot (e : Evacuation) (slot : Nat) : CopyM Unit := do
  match Word.toRef? (← load slot) with
  | none => pure ()
  | some a =>
    let copy ← e.evacuate a
    change fun m => m.writeRef slot copy

/-- Update all slots of a direct object. -/
def scanObject (e : Evacuation) (object : Nat) : CopyM Unit := do
  let slots ← inspect fun m => m.slots e.table object
  slots.visit load e.updateSlot

/-- Scan at most `fuel` objects of the target, from word `scan` on. -/
def scanUpTo (e : Evacuation) : (fuel : Nat) → (scan : Nat) → CopyM Unit
  | 0, _ => pure ()
  | fuel + 1, scan => fun s =>
    if scan < s.target.cursor then
      (do let object := s.target.start + scan
          e.scanObject object
          let words ← inspect fun m => m.extent e.table e.padding object
          e.scanUpTo fuel (scan + words)) s
    else .ok () s

/-- Scan the objects of the target from word `scan` on, with those that are copied meanwhile. As
every object has a word, there are no more of them than words. -/
def scanFrom (e : Evacuation) (scan : Nat) : CopyM Unit := fun s =>
  e.scanUpTo s.target.capacity scan s

end Evacuation

end Tenure
