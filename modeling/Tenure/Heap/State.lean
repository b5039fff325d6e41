import Tenure.Evacuation
import Tenure.Event
import Tenure.RootStack
import Tenure.Settings
import Tenure.Statistics

/-!
# The heap

A heap has two generations. New objects go to the nursery. Objects that survive an epoch of the
nursery move to the semispace, which has two halves: the active one holds the objects, and the
reserve is empty except while a scavenge copies into it. The remembered set names the objects of
the semispace that a program has made refer into the nursery.
-/

namespace Tenure

/-- A collection of the nursery that is under way. -/
structure Epoch where
  /-- The word of the active half from which this epoch's promotions lie. -/
  start : Nat
  promoted : Tally := {}
  deriving DecidableEq, Repr

/-- The young generation. -/
structure Nursery where
  region : Region
  /-- Without repetitions, latest first. -/
  remembered : List Nat := []
  epoch : Option Epoch := none
  deriving DecidableEq, Repr

/-- The old generation. -/
structure Semispace where
  active : Region
  reserve : Region
  deriving DecidableEq, Repr

/-- A heap between two operations. -/
structure Heap where
  settings : Settings
  table : TypeTable
  memory : Memory
  nursery : Nursery
  semispace : Semispace
  roots : RootStack Nat := {}
  statistics : Statistics := {}
  /-- What has happened since the events were last taken out. -/
  events : Array Event := #[]

/-- An operation on the heap. One that fails leaves what it did so far. -/
abbrev HeapM := EStateM Fault Heap

/-- Add an address to the remembered set. -/
def Nursery.remember (n : Nursery) (a : Nat) : Nursery :=
  if a ∈ n.remembered then n else { n with remembered := a :: n.remembered }

/-- Does the active half have this many bytes left? -/
def Semispace.hasRoom (s : Semispace) (bytes : Nat) : Bool := bytes ≤ s.active.freeBytes

namespace Heap

/-- A heap with empty generations of the sizes in the settings, each rounded down to words. -/
def layOut (settings : Settings) (table : TypeTable) : Except Fault Heap := do
  let (region, memory) ← Region.reserve .empty (settings.nurserySize / wordBytes)
  let (active, memory) ← Region.reserve memory (settings.semispaceSize / wordBytes)
  let (reserve, memory) ← Region.reserve memory (settings.semispaceSize / wordBytes)
  return { settings, table, memory, nursery := { region }, semispace := { active, reserve } }

/-- A new heap. A half of the semispace must have room for a whole nursery. -/
def create (settings : Settings) (table : TypeTable) : Except Fault Heap := do
  if settings.semispaceSize < settings.nurserySize then
    throw (.fatal (.exhausted settings.nurserySize settings.semispaceSize))
  let h ← layOut settings table
  return { h with
    events := #[.created h.nursery.region.capacityBytes h.semispace.active.capacityBytes
      table.size] }

/-- Evaluate on the heap, which does not change. -/
@[inline] def ask {α : Type} (f : Heap → α) : HeapM α := fun h => .ok (f h) h

/-- Change the heap. -/
@[inline] def change (f : Heap → Heap) : HeapM Unit := fun h => .ok () (f h)

/-- Change the memory. -/
@[inline] def changeMemory (f : Memory → Memory) : HeapM Unit := fun h =>
  .ok () { h with memory := f h.memory }

/-- Tell an event. -/
def tell (event : Event) : HeapM Unit := change fun h => { h with events := h.events.push event }

/-- Take out the events told so far. -/
def takeEvents (h : Heap) : Array Event × Heap := (h.events, { h with events := #[] })

/-- What a program prints when it is done with the heap, after so many milliseconds. -/
def closingReport (h : Heap) (elapsed : Nat) : List String :=
  if h.settings.showStatistics then h.statistics.report elapsed else []

/-- Run a copying pass from `source h` to `target h`, which `update` puts back. Gives what the pass
copied. -/
@[inline] def runPass {α : Type} (source target : Heap → Region) (update : Heap → Region → Heap)
    (pass : Evacuation → CopyM α) : HeapM (α × Tally) := fun h =>
  let e : Evacuation :=
    { table := h.table, source := source h,
      padding := h.settings.padding, compact := h.settings.compactTails }
  let start : CopyState := { memory := h.memory, target := target h }
  let h := { h with memory := .empty }
  match pass e start with
  | .ok a s => .ok (a, s.tally) (update { h with memory := s.memory } s.target)
  | .error fault s => .error fault (update { h with memory := s.memory } s.target)

end Heap

end Tenure
