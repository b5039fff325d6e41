import Tenure.Heap.Epoch
import Tenure.Heap.Scavenge

/-!
# Collection cycles and allocation

A cycle empties the nursery, scavenges the semispace if it is full enough, and scavenges it in any
case if a whole nursery would not fit any more. If it does not fit even then, the heap is
exhausted. An allocation takes the next words of the nursery and runs a cycle when there are too
few.
-/

namespace Tenure

namespace Heap

/-- Tell that a phase has ended. -/
def report (phase : Phase) (tally : Tally) : HeapM Unit := do
  let active ← ask (·.semispace.active)
  let occupancy := if (← ask (·.settings.verbose)) then
    some (active.usedBytes, active.capacityBytes) else none
  tell (.finished phase tally.objects tally.bytes occupancy)

/-- Change the counters. -/
def count (f : Statistics → Statistics) : HeapM Unit :=
  change fun h => { h with statistics := f h.statistics }

/-- Empty the nursery by a whole epoch. -/
def promoteNursery : HeapM Unit := do
  beginEpoch
  promoteRoots
  let tally ← endEpoch
  count (·.addMinor tally.objects tally.bytes)
  report .nurseryEpoch tally

/-- Scavenge because the semispace is full enough for it. -/
def scavengeOnThreshold : HeapM Unit := do
  match ← scavengeIfFull with
  | none => pure ()
  | some tally =>
    count (·.addScavenge true tally.objects tally.bytes)
    report .concurrentScavenge tally

/-- Scavenge because room is needed. -/
def scavengeForRoom : HeapM Unit := do
  let tally ← scavenge
  count (·.addScavenge false tally.objects tally.bytes)
  report .scavenge tally

/-- The active half must have room for a whole nursery. -/
def requireHeadroom : HeapM Unit := do
  let needed ← ask (·.nursery.region.capacityBytes)
  if !(← ask (·.semispace.hasRoom needed)) then
    throw (.fatal (.exhausted needed (← ask (·.semispace.active.freeBytes))))

/-- One collection cycle. -/
def collect : HeapM Unit := do
  promoteNursery
  scavengeOnThreshold
  if !(← ask fun h => h.semispace.hasRoom h.nursery.region.capacityBytes) then
    scavengeForRoom
    requireHeadroom
  count (·.heapSize (← ask (·.semispace.active.usedBytes)))

/-- A collection cycle on request. -/
def minorCollection : HeapM Unit := collect

/-- Empty the nursery and scavenge in any case. -/
def majorCollection : HeapM Unit := do
  promoteNursery
  scavengeForRoom
  requireHeadroom

/-- Place an object in the nursery, if it fits as a whole and a header can hold its tag. There must
be no epoch. -/
def tryPlace (f : Footprint) : HeapM (Option Nat) := fun h =>
  if h.nursery.epoch.isSome then .error (.violation .allocationInEpoch) h
  else
    match h.nursery.region.bump f.words with
    | none => .ok none h
    | some (a, region) =>
      if maxTag < f.tag then .error (.fatal (.encodingMisuse .tagTooLarge)) h
      else .ok (some a) { h with memory := f.place h.memory a, nursery.region := region }

/-- Allocate in the nursery without collecting, or give nothing if it is full. -/
def tryAllocate (tag size : Nat) (tail : TailLayout) : HeapM (Option Nat) := do
  tryPlace (← attempt (escalating
    (← ask fun h => h.table.footprint tag size tail h.settings.padding)))

/-- Place an object, with at most `collections` cycles to make room. -/
def placeCollecting (f : Footprint) : (collections : Nat) → HeapM Nat
  | 0 => do
    match ← tryPlace f with
    | some a => return a
    | none => throw (.violation .allocationStuck)
  | collections + 1 => do
    match ← tryPlace f with
    | some a => return a
    | none =>
      collect
      placeCollecting f collections

/-- Allocate an object of type `tag` with `size` tail units, all zero. The object is larger than
the nursery or fits it once that is empty, so one cycle is enough to make room. -/
def allocateWith (tag size : Nat) (tail : TailLayout) : HeapM Nat := do
  let f ← attempt (escalating
    (← ask fun h => h.table.footprint tag size tail h.settings.padding))
  let nursery ← ask (·.nursery.region.capacityBytes)
  if nursery < f.bytes then throw (.fatal (.objectTooLarge f.bytes nursery))
  placeCollecting f 1

/-- Allocate an object and let the settings decide on the tail; an empty one is inline. -/
def allocate (tag size : Nat) : HeapM Nat := do
  let inlineTails ← ask (·.settings.inlineTails)
  allocateWith tag size (if inlineTails || size = 0 then .inline else .outOfLine)

end Heap

end Tenure
