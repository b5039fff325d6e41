/-!
# Statistics

Counters that the collector keeps about itself. Times come from outside, in nanoseconds; the heap
itself has no clock.
-/

namespace Tenure

/-- The counters. -/
structure Statistics where
  /-- Nursery epochs. -/
  minor : Nat := 0
  /-- Scavenges that a full semispace set off. -/
  concurrent : Nat := 0
  /-- All other scavenges. -/
  scavenges : Nat := 0
  objectsPromoted : Nat := 0
  bytesPromoted : Nat := 0
  objectsCopied : Nat := 0
  bytesCopied : Nat := 0
  /-- The largest heap size reported so far. -/
  maxHeap : Nat := 0
  totalPause : Nat := 0
  longestPause : Nat := 0
  deriving DecidableEq, Repr

namespace Statistics

/-- Count a nursery epoch and what it promoted. -/
def addMinor (s : Statistics) (objects bytes : Nat) : Statistics :=
  { s with
    minor := s.minor + 1
    objectsPromoted := s.objectsPromoted + objects
    bytesPromoted := s.bytesPromoted + bytes }

/-- Count a scavenge and what survived it. -/
def addScavenge (s : Statistics) (concurrent : Bool) (objects bytes : Nat) : Statistics :=
  { s with
    concurrent := if concurrent then s.concurrent + 1 else s.concurrent
    scavenges := if concurrent then s.scavenges else s.scavenges + 1
    objectsCopied := s.objectsCopied + objects
    bytesCopied := s.bytesCopied + bytes }

/-- Add a pause. -/
def addPause (s : Statistics) (ns : Nat) : Statistics :=
  { s with totalPause := s.totalPause + ns, longestPause := max s.longestPause ns }

/-- Take note of the size of the heap. -/
def heapSize (s : Statistics) (bytes : Nat) : Statistics :=
  { s with maxHeap := max s.maxHeap bytes }

/-- The report, for a run that took so many milliseconds. A run takes at least one. -/
def report (s : Statistics) (elapsed : Nat) : List String :=
  let total := max elapsed 1
  let paused := s.totalPause / 1000000
  let percent := paused * 100 / total
  [s!"minor {s.minor} (promoted {s.objectsPromoted} objects, {s.bytesPromoted} bytes); " ++
    s!"scavenges {s.scavenges} + {s.concurrent} concurrent " ++
    s!"(copied {s.objectsCopied} objects, {s.bytesCopied} bytes); max-heap {s.maxHeap}",
   s!"paused {paused}/{total}ms ({percent}%), longest pause {s.longestPause / 1000}us"]

end Statistics

end Tenure
