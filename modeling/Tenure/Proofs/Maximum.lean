import Tenure.Proofs.Accounts

/-!
# The largest heap size

A collection cycle takes note of the size of the heap at its end, and no other instruction than a
major collection changes that size in between. A major collection is no cycle and takes no note, so
after it the heap may be larger than the largest heap size, until the next cycle. Main statement:
`maximum_covers`.
-/

namespace Tenure

open Mutator (Instr)

namespace Heap

/-- The heap is not larger than the largest heap size that it has taken note of. -/
def Covered (h : Heap) : Prop := h.semispace.active.usedBytes ≤ h.statistics.maxHeap

variable {h h' : Heap} {l : Census}

private theorem Covered.of_countsNothing (hc : h.Covered) (hn : CountsNothing h h') :
    h'.Covered := by
  rw [Covered, hn.semispace, hn.statistics]
  exact hc

/-- A cycle makes up for what was not noted before. -/
theorem covered_of_collect (hs : h.Sound l) (hroom : h.Headroom) (he : collect h = .ok () h') :
    h'.Covered := by
  obtain ⟨-, -, hm⟩ := (ends_collect_counts hs hroom).of_eq_ok he
  rw [Covered, hm]
  exact Nat.le_max_right _ _

private theorem Allocates.covered (hs : h.Sound l) (hroom : h.Headroom) (ha : Allocates h l h')
    (hc : h.Covered) : h'.Covered := by
  obtain ⟨a, n, h₁, h₂, hre, hsup, hp, rfl⟩ := ha
  refine Covered.of_countsNothing ?_ (.closed hp)
  rcases hsup with rfl | he
  · exact hc.of_countsNothing (.holding n)
  · exact covered_of_collect (hre.sound hs) (hre.headroom hs hroom) he

/-- Only a major collection can make the heap larger than is noted. -/
theorem Effect.covered {instr : Instr} (hs : h.Sound l) (hroom : h.Headroom)
    (he : h.Effect l h' instr) (hi : instr ≠ .majorCollection) (hc : h.Covered) : h'.Covered := by
  cases instr with
  | allocate => exact Allocates.covered hs hroom he hc
  | allocateUnder => exact Allocates.covered hs hroom he hc
  | minorCollection => exact covered_of_collect hs hroom he
  | majorCollection => exact absurd rfl hi
  | _ => exact hc.of_countsNothing (.edits he)

/-- Nothing is in use of a new heap. -/
theorem covered_of_create {settings : Settings} {table : TypeTable}
    (hc : create settings table = .ok h) : h.Covered := by
  obtain ⟨_, active, _, _, _, _, _, -, -, hactive, -, rfl⟩ := eq_of_create hc
  rw [Covered, Region.usedBytes, hactive.cursor, Nat.zero_mul]

end Heap

namespace Mutator

/-- A collection on request. -/
def Instr.collects : Instr → Bool
  | .minorCollection | .majorCollection => true
  | _ => false

/-- The latest collection that was requested. -/
def latestRequest (instrs : List Instr) : Option Instr := instrs.reverse.find? Instr.collects

variable {settings : Settings} {table : TypeTable} {h : Heap} {s s' : Session} {instr : Instr}
  {instrs : List Instr}

private theorem latestRequest_concat : latestRequest (instrs ++ [instr]) =
    if instr.collects then some instr else latestRequest instrs := by
  simp only [latestRequest, List.reverse_append, List.reverse_singleton, List.singleton_append,
    List.find?_cons]
  cases instr.collects <;> rfl

/-- In every run on a new heap, the largest heap size covers the heap as long as the latest
collection that was requested is not a major one. A major collection does not take note. -/
theorem maximum_covers (hc : Heap.create settings table = .ok h)
    (hp : Performs { heap := h } instrs s) :
    (latestRequest instrs ≠ some .majorCollection → s.heap.Covered) ∧
    ∀ s', Steps .majorCollection s s' →
      s'.heap.statistics.maxHeap = s.heap.statistics.maxHeap := by
  obtain ⟨l, hr⟩ := (Reaches.start hc).performs hp
  refine ⟨?_, fun s' hst ↦ ?_⟩
  · clear hr
    -- The latest request is the last instruction, unless that does not collect.
    induction hp with
    | nil => exact fun _ ↦ Heap.covered_of_create hc
    | @snoc instrs instr s s' hp hst ih =>
      obtain ⟨l, hr⟩ := (Reaches.start hc).performs hp
      have he := hst.effect hr.sound hr.headroom
      rw [latestRequest_concat]
      intro hl
      split at hl
      · next hi =>
        cases instr with
        | minorCollection => exact Heap.covered_of_collect hr.sound.heap hr.headroom he
        | majorCollection => exact absurd rfl hl
        | _ => cases hi
      · next hi =>
        exact he.covered hr.sound.heap hr.headroom (by rintro rfl; exact hi rfl) (ih hl)
    | reorder _ ho ih => exact fun hl ↦ (ih hl).of_countsNothing (.reordered ho)
  · have he := hst.effect hr.sound hr.headroom
    exact ((Heap.ends_majorCollection_counts hr.sound.heap hr.headroom).of_eq_ok he).2.2

namespace Sample

/-- A major collection promotes an object. -/
def majorProgram : List (Instr × Option String) :=
  [(.allocate 1 0 none, some "first"), (.makeRoot (.register "first"), none),
    (.majorCollection, none)]

/-- A cycle promotes another one. -/
def minorProgram : List (Instr × Option String) := majorProgram ++
  [(.allocate 1 1 none, some "second"), (.makeRoot (.register "second"), none),
    (.minorCollection, none)]

private theorem majorProgram_isSome : (endOf smallSettings majorProgram).isSome = true := by
  decide +kernel

private theorem minorProgram_isSome : (endOf smallSettings minorProgram).isSome = true := by
  decide +kernel

end Sample

/-- A run on a new heap after which the largest heap size covers the heap again. -/
theorem maximum_sample : ∃ h instrs s, Heap.create Sample.smallSettings Sample.nodeTable = .ok h ∧
    Performs { heap := h } instrs s ∧ .majorCollection ∈ instrs ∧
    s.heap.semispace.active.usedBytes = 72 ∧ s.heap.Covered := by
  obtain ⟨h, s, hc, hp, hs⟩ := Sample.performs_of_isSome Sample.minorProgram_isSome
  have hv : (Sample.endOf Sample.smallSettings Sample.minorProgram).map
      (·.heap.semispace.active.usedBytes) = some 72 := by
    decide +kernel
  rw [hs, Option.map_some, Option.some.injEq] at hv
  exact ⟨h, _, s, hc, hp, by decide, hv, (maximum_covers hc hp).1 (by decide)⟩

/-- A run on a new heap that ends with a major collection. What it has promoted is not noted. -/
theorem maximum_exceeded : ∃ h instrs s,
    Heap.create Sample.smallSettings Sample.nodeTable = .ok h ∧
    Performs { heap := h } instrs s ∧ s.heap.statistics.maxHeap = 0 ∧
    s.heap.semispace.active.usedBytes = 32 ∧ ¬ s.heap.Covered := by
  obtain ⟨h, s, hc, hp, hs⟩ := Sample.performs_of_isSome Sample.majorProgram_isSome
  have hv : (Sample.endOf Sample.smallSettings Sample.majorProgram).map
      (fun s ↦ (s.heap.statistics.maxHeap, s.heap.semispace.active.usedBytes)) = some (0, 32) := by
    decide +kernel
  rw [hs, Option.map_some, Option.some.injEq, Prod.mk.injEq] at hv
  refine ⟨h, _, s, hc, hp, hv.1, hv.2, ?_⟩
  rw [Heap.Covered, hv.1, hv.2]
  decide

end Mutator

end Tenure
