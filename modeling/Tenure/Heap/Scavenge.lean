import Tenure.Heap.State

/-!
# Scavenges

A scavenge copies what the roots reach from the active half of the semispace to the reserve; then
the halves change places. The nursery must be empty.
-/

namespace Tenure

namespace Heap

/-- Copy what the roots reach and swap the halves. Gives what was copied. -/
def scavenge : HeapM Tally := do
  let before ← ask (·.semispace.active.cursor)
  let roots ← ask (·.roots)
  let (roots, tally) ← runPass (·.semispace.active) (·.semispace.reserve)
    (fun h reserve => { h with semispace.reserve := reserve })
    fun e => do
      let roots ← roots.markM e.evacuate
      e.scanFrom 0
      return roots
  change fun h =>
    let old := h.semispace.active
    { h with
      memory := h.memory.clear old.start old.cursor
      roots
      semispace := { active := h.semispace.reserve, reserve := old.reset } }
  tell (.scavenged tally.objects tally.words before)
  return tally

/-- Scavenge if enough of the active half is in use. -/
def scavengeIfFull : HeapM (Option Tally) := do
  let active ← ask (·.semispace.active)
  if active.cursor * 100 < (← ask (·.settings.threshold)) * active.capacity then
    tell (.scavengeSkipped active.cursor active.capacity)
    return none
  else
    return some (← scavenge)

end Heap

end Tenure
