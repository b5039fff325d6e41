import Tenure.Heap.State

/-!
# Nursery epochs

A collection of the nursery has three steps. The beginning promotes what the remembered set refers
to; then every root is promoted; the end promotes whatever the promoted objects refer to and
empties the nursery. What is promoted is appended to the active half of the semispace. Nothing is
allocated in between.
-/

namespace Tenure

namespace Heap

/-- Run a pass from the nursery to the end of the active half. -/
def promoting {α : Type} (pass : Evacuation → CopyM α) : HeapM (α × Tally) :=
  runPass (·.nursery.region) (·.semispace.active)
    (fun h active => { h with semispace.active := active }) pass

/-- Count what a pass of this epoch has promoted. -/
def addPromoted (tally : Tally) : HeapM Unit := change fun h =>
  { h with nursery.epoch := h.nursery.epoch.map fun epoch =>
      { epoch with promoted := epoch.promoted + tally } }

/-- Promote what a remembered object refers to. A remembered indirection is shortened to lead to
the object itself. -/
def promoteRemembered (e : Evacuation) (a : Nat) : CopyM Unit := fun s =>
  match s.memory.hop? a with
  | some target =>
    (do let copy ← e.evacuate target
        CopyM.change fun m => m.redirect a copy) s
  | none => e.scanObject a s

/-- Begin an epoch, and go through the remembered set in the given order. -/
def beginEpochWith (remembered : List Nat) : HeapM Unit := do
  if (← ask (·.nursery.epoch.isSome)) then throw (.violation .epochOpen)
  change fun h => { h with
    nursery.epoch := some { start := h.semispace.active.cursor }
    nursery.remembered := [] }
  tell (.epochBegun (← ask (·.nursery.region.cursor)) remembered.length)
  let ((), tally) ← promoting fun e => remembered.forM (promoteRemembered e)
  addPromoted tally

/-- Begin an epoch. -/
def beginEpoch : HeapM Unit := do
  beginEpochWith (← ask (·.nursery.remembered))

/-- Promote the object that a root refers to. Gives its new place. -/
def promote (a : Nat) : HeapM Nat := do
  if (← ask (·.nursery.epoch.isNone)) then throw (.violation .promotionOutsideEpoch)
  let (copy, tally) ← promoting fun e => e.evacuate a
  addPromoted tally
  return copy

/-- Promote every root. -/
def promoteRoots : HeapM Unit := do
  let roots ← (← ask (·.roots)).markM promote
  change fun h => { h with roots }

/-- End an epoch. Gives what it promoted. -/
def endEpoch : HeapM Tally := do
  match ← ask (·.nursery.epoch) with
  | none => throw (.violation .noEpochToEnd)
  | some epoch =>
    let ((), tally) ← promoting fun e => e.scanFrom epoch.start
    change fun h => { h with
      memory := h.memory.clear h.nursery.region.start h.nursery.region.cursor
      nursery := { region := h.nursery.region.reset } }
    return epoch.promoted + tally

end Heap

end Tenure
