import Tenure.Proofs.Invariants

/-!
# Exhaustion

In every heap that a program can reach, the active half has room for a whole nursery. So neither an
epoch nor a scavenge can run out of room, and a heap is exhausted only if the check at the end of a
collection says so. By then just the live objects are left, so what it says depends on the graph
alone: not on garbage, on indirections or on when scavenges are made. Main statements:
`Reaches.heap_roomy` and `Reaches.reports_shortage`.
-/

namespace Tenure

namespace Heap

/-- There is headroom, so the epoch of a collection and its scavenges find room for all copies. -/
structure Roomy (h : Heap) : Prop where
  headroom : h.nursery.region.capacityBytes ≤ h.semispace.active.freeBytes
  epoch : ∃ h₁, promoteNursery h = .ok () h₁ ∧
    (∃ h₂ h₃, scavengeOnThreshold h₁ = .ok () h₂ ∧ scavengeForRoom h₂ = .ok () h₃) ∧
    ∃ h₂, scavengeForRoom h₁ = .ok () h₂

/-- The live objects leave fewer words of the active half than the nursery has. -/
def Short (h : Heap) : Prop :=
  h.semispace.active.capacity - h.liveWords < h.nursery.region.capacity

/-- What a heap that is short reports. -/
noncomputable def shortage (h : Heap) : Fault :=
  .fatal (.exhausted h.nursery.region.capacityBytes
    (h.semispace.active.capacityBytes - 8 * h.liveWords))

/-- The operation finds the heap exhausted just if it is short, and reports that. -/
structure ReportsShortage {α : Type} (op : HeapM α) (h : Heap) : Prop where
  iff_short : (∃ e h', op h = .error e h' ∧ e.IsExhausted) ↔ h.Short
  eq_shortage : ∀ e h', op h = .error e h' → e.IsExhausted → e = h.shortage

/-- An object of these sizes fits the nursery, but not what is left of it. -/
def Overfull (h : Heap) (tag size : Nat) (tail : TailLayout) : Prop :=
  ∃ f, h.table.footprint tag size tail h.settings.padding = .ok f ∧
    f.bytes ≤ h.nursery.region.capacityBytes ∧ h.nursery.region.bump f.words = none

variable {h h' : Heap} {l l' : Census} {e : Fault} {α : Type} {op : HeapM α} {tag size : Nat}
  {tail : TailLayout}

/-- In a sound heap with headroom collections find room. -/
theorem Sound.roomy (hs : h.Sound l) (hroom : h.Headroom) : h.Roomy := by
  obtain ⟨h₁, l₁, he₁, hc₁⟩ := hs.exists_promoted hroom
  obtain ⟨_, h₂, he₂, ⟨l₂, hc₂⟩, -⟩ := (ends_scavengeOnThreshold hc₁).exists_eq_ok
  obtain ⟨_, h₃, he₃, -⟩ := (ends_scavengeForRoom hc₂).exists_eq_ok
  obtain ⟨_, h₄, he₄, -⟩ := (ends_scavengeForRoom hc₁).exists_eq_ok
  exact ⟨hroom, h₁, he₁, ⟨h₂, h₃, he₂, he₃⟩, h₄, he₄⟩

instance : Decidable (h.Overfull tag size tail) :=
  match hf : h.table.footprint tag size tail h.settings.padding with
  | .error _ => .isFalse fun ⟨_, hf', _⟩ ↦ by cases hf.symm.trans hf'
  | .ok f =>
    decidable_of_iff (f.bytes ≤ h.nursery.region.capacityBytes ∧
        h.nursery.region.bump f.words = none)
      ⟨fun hfull ↦ ⟨f, hf, hfull⟩, fun ⟨_, hf', hfull⟩ ↦ by cases hf.symm.trans hf'; exact hfull⟩

/-! ### What a collection leaves -/

private theorem Collected.liveWords_le (hc : Collected h l h' l') :
    h.liveWords ≤ h'.semispace.active.cursor := by
  obtain ⟨φ, hg⟩ := hc.graph
  rw [← hg.liveWords_eq]
  exact hc.sound_old.liveWords_le

/-- The live objects need no more words than the active half has. -/
theorem Sound.liveWords_le_capacity (hs : h.Sound l) (hroom : h.Headroom) :
    h.liveWords ≤ h.semispace.active.capacity := by
  obtain ⟨h₁, l₁, -, hc⟩ := hs.exists_promoted hroom
  rw [← hc.capacity]
  exact Nat.le_trans hc.liveWords_le h₁.semispace.active.cursor_le

/-- If there is headroom after a collection, then the heap was not short. -/
theorem Collected.not_short (hc : Collected h l h' l') (hroom : h'.Headroom) : ¬ h.Short := by
  have hle := hc.liveWords_le
  have := h'.semispace.active.cursor_le
  simp only [Headroom, Region.capacityBytes, Region.freeBytes, Region.free, wordBytes, hc.nursery,
    Region.reset, hc.capacity] at hroom
  simp only [Short]
  omega

/-- If the check at the end of a collection fails, then the heap was short. -/
theorem Spent.short (hsp : h.Spent l e h') : h.Short ∧ e = h.shortage := by
  obtain ⟨⟨l', hc⟩, hcur, hf⟩ := hsp
  obtain ⟨hn, -, rfl⟩ := requireHeadroom_eq_error_iff.mp hf
  simp only [Headroom, Region.capacityBytes, Region.freeBytes, Region.free, wordBytes, hc.nursery,
    Region.reset, hc.capacity, hcur] at hn
  refine ⟨by simp only [Short]; omega, ?_⟩
  simp only [shortage, Region.capacityBytes, Region.freeBytes, Region.free, wordBytes, hc.nursery,
    Region.reset, hc.capacity, hcur, Fault.fatal.injEq, HeapError.exhausted.injEq, true_and]
  omega

/-! ### Operations that collect -/

/-- The operation fails for lack of room just if the heap is short, and says so. -/
private def Judges (op : HeapM α) (h : Heap) : Prop :=
  Ends op h (fun _ _ ↦ ¬ h.Short)
    (fun e _ ↦ e.IsExhausted ∧ h.Short ∧ e = h.shortage ∨ ¬ e.IsExhausted ∧ ¬ h.Short)

private theorem Judges.reportsShortage (hj : Judges op h) : h.ReportsShortage op where
  iff_short := by
    constructor
    · rintro ⟨e, h', he, hx⟩
      rcases hj.of_eq_error he with ⟨-, hshort, -⟩ | ⟨hn, -⟩
      · exact hshort
      · exact absurd hx hn
    · intro hshort
      cases he : op h with
      | ok a h' => exact absurd hshort (hj.of_eq_ok he)
      | error e h' =>
        rcases hj.of_eq_error he with ⟨hx, -⟩ | ⟨-, hn⟩
        · exact ⟨e, h', rfl, hx⟩
        · exact absurd hshort hn
  eq_shortage := by
    intro e h' he hx
    rcases hj.of_eq_error he with ⟨-, -, heq⟩ | ⟨hn, -⟩
    · exact heq
    · exact absurd hx hn

section Sound

variable (hs : h.Sound l) (hroom : h.Headroom)
include hs hroom

private theorem judges_collect : Judges collect h :=
  (ends_collect hs).mono (fun _ _ ⟨⟨_, hc⟩, _, hr⟩ ↦ hc.not_short hr)
    fun _ _ ⟨he, hsp⟩ ↦ .inl ⟨he, (hsp hroom).short⟩

private theorem judges_majorCollection : Judges majorCollection h :=
  (ends_majorCollection hs).mono (fun _ _ ⟨⟨_, hc⟩, _, hr⟩ ↦ hc.not_short hr)
    fun _ _ ⟨he, hsp⟩ ↦ .inl ⟨he, (hsp hroom).short⟩

-- What follows a collection may fail, but not for lack of room.
private theorem judges_collect_then (ht : Tame op) : Judges (do collect; op) h :=
  Ends.bind (judges_collect hs hroom) fun _ h' hn ↦
    (ht h').mono (fun _ _ _ ↦ hn) fun _ _ ht ↦ .inr ⟨ht, hn⟩

private theorem judges_allocateWith (hfull : h.Overfull tag size tail) :
    Judges (allocateWith tag size tail) h := by
  obtain ⟨f, hf, hfit, hbump⟩ := hfull
  have hplace : tryPlace f h = .ok none h := by
    simp only [tryPlace, hs.epoch, Option.isSome_none, Bool.false_eq_true, if_false, hbump]
  have hlast : Tame (placeCollecting f 0) := by
    rw [placeCollecting]
    refine tame_tryPlace.bind fun r ↦ ?_
    cases r with
    | none => exact tame_violation _
    | some a => exact tame_pure a
  have hj := judges_collect_then hs hroom hlast
  unfold Judges at hj ⊢
  rw [allocateWith, ends_ask_bind, hf, escalating, ends_bind_iff, ends_attempt_ok, ends_ask_bind,
    if_neg (Nat.not_lt.mpr hfit), placeCollecting, ends_bind_iff, ends_iff_of_eq_ok hplace]
  exact hj

private theorem judges_allocate
    (hfull : h.Overfull tag size
      (if h.settings.inlineTails || size = 0 then .inline else .outOfLine)) :
    Judges (allocate tag size) h := by
  have hj := judges_allocateWith hs hroom hfull
  unfold Judges at hj ⊢
  rw [allocate, ends_ask_bind]
  exact hj

end Sound

end Heap

namespace Mutator

namespace Sample

/-- Room for two objects in the nursery, and for four in each half of the semispace. -/
def tinySettings : Settings := { nurserySize := 64, semispaceSize := 128 }

/-- An object as large as the nursery, in the active half, and a small one in the nursery. Both are
roots, and together they leave no room for a whole nursery. -/
def fullProgram : List (Instr × Option String) :=
  [(.allocate 1 4 (some .inline), some "large"), (.makeRoot (.register "large"), none),
    (.minorCollection, none), (.allocate 1 0 none, some "small"),
    (.makeRoot (.register "small"), none)]

/-- Does a collection fail for lack of four words, and is the nursery too full for two objects? -/
def isFull (s : Session) : Bool :=
  (match Heap.minorCollection s.heap with
    | .ok _ _ => false
    | .error e _ => e = .fatal (.exhausted 64 32)) &&
    s.heap.Overfull 1 4 .inline && s.heap.Overfull 1 1 .outOfLine && !s.heap.settings.inlineTails

private theorem isFull_endOf : (endOf tinySettings fullProgram).map isFull = some true := by
  decide +kernel

private theorem reaches_full : ∃ s l h', Reaches tinySettings nodeTable s l ∧
    Heap.minorCollection s.heap = .error (.fatal (.exhausted 64 32)) h' ∧
    s.heap.Overfull 1 4 .inline ∧ s.heap.Overfull 1 1 .outOfLine ∧
    s.heap.settings.inlineTails = false := by
  obtain ⟨s, hs, hf⟩ := Option.map_eq_some_iff.mp isFull_endOf
  obtain ⟨s', l, hs', hr⟩ := reaches_of_isSome (Option.isSome_of_eq_some hs)
  obtain rfl := Option.some.inj (hs.symm.trans hs')
  simp only [isFull, Bool.and_eq_true, decide_eq_true_eq, Bool.not_eq_true'] at hf
  obtain ⟨⟨⟨he, hlarge⟩, hsmall⟩, hset⟩ := hf
  split at he
  · cases he
  · next e h' hm =>
    rw [decide_eq_true_eq] at he
    subst he
    exact ⟨s, l, h', hr, hm, hlarge, hsmall, hset⟩

end Sample

variable {settings : Settings} {table : TypeTable} {s : Session} {l : Census}

/-- In every session that a program can reach, collections find room for all copies under any root
stack that the program can build, and whenever an instruction finds the heap exhausted it is the
check for headroom that says so. -/
theorem Reaches.heap_roomy (hr : Reaches settings table s l) :
    (∀ h, s.heap.Rerooted l h → h.Roomy) ∧
    ∀ instr register e s', run instr register s = .error (.fault e) s' → e.IsExhausted →
      Heap.requireHeadroom s'.heap = .error e s'.heap := by
  have hs := hr.sound
  have hroom := hr.headroom
  constructor
  · intro h hre
    have hm := (Heap.Moves.refl hs.heap).rerooted hre
    exact hm.sound.roomy (hm.headroom hroom)
  · intro instr register e s' he hx
    rcases (ends_run hs instr register).of_eq_error he with ⟨f, hf, -, hcheck⟩ | ⟨hn, -⟩
    · cases hf
      exact hcheck hroom
    · exact absurd hx hn

/-- A run that ends with an exhausted heap. -/
theorem roomy_sample : ∃ s l, Reaches Sample.tinySettings Sample.nodeTable s l ∧ s.heap.Roomy ∧
    ∃ e s', run .minorCollection none s = .error (.fault e) s' ∧
      e = .fatal (.exhausted 64 32) ∧ Heap.requireHeadroom s'.heap = .error e s'.heap := by
  obtain ⟨s, l, h', hr, he, -⟩ := Sample.reaches_full
  have hrun : run .minorCollection none s =
      .error (.fault (.fatal (.exhausted 64 32))) { s with heap := h' } := by
    simp only [run, exec, onHeap, bind, EStateM.bind, he]
  exact ⟨s, l, hr, hr.heap_roomy.1 _ (.refl hr.sound.heap), _, _, hrun, rfl,
    hr.heap_roomy.2 _ _ _ _ hrun trivial⟩

/-- In every session that a program can reach, collections find the heap exhausted just if the live
objects leave fewer words of the active half than the nursery has, and so does an allocation that
finds the nursery full. -/
theorem Reaches.reports_shortage (hr : Reaches settings table s l) :
    {d | s.heap.Live d}.Finite ∧ s.heap.liveWords ≤ s.heap.semispace.active.capacity ∧
    s.heap.ReportsShortage Heap.minorCollection ∧ s.heap.ReportsShortage Heap.majorCollection ∧
    ∀ tag size,
      (∀ tail, s.heap.Overfull tag size tail →
        s.heap.ReportsShortage (Heap.allocateWith tag size tail)) ∧
      (s.heap.Overfull tag size
          (if s.heap.settings.inlineTails || size = 0 then .inline else .outOfLine) →
        s.heap.ReportsShortage (Heap.allocate tag size)) := by
  have hs := hr.sound.heap
  have hroom := hr.headroom
  exact ⟨Heap.Live.finite hs, hs.liveWords_le_capacity hroom,
    (Heap.judges_collect hs hroom).reportsShortage,
    (Heap.judges_majorCollection hs hroom).reportsShortage, fun tag size ↦
      ⟨fun tail hfull ↦ (Heap.judges_allocateWith hs hroom hfull).reportsShortage,
        fun hfull ↦ (Heap.judges_allocate hs hroom hfull).reportsShortage⟩⟩

/-- A run that ends with a heap that is short by four words. -/
theorem shortage_sample : ∃ s l, Reaches Sample.tinySettings Sample.nodeTable s l ∧
    s.heap.Short ∧ s.heap.shortage = .fatal (.exhausted 64 32) ∧
    s.heap.Overfull 1 4 .inline ∧ s.heap.Overfull 1 1 .outOfLine ∧
    s.heap.ReportsShortage Heap.minorCollection ∧ s.heap.ReportsShortage Heap.majorCollection ∧
    s.heap.ReportsShortage (Heap.allocateWith 1 4 .inline) ∧
    s.heap.ReportsShortage (Heap.allocate 1 1) := by
  obtain ⟨s, l, h', hr, he, hlarge, hsmall, hset⟩ := Sample.reaches_full
  obtain ⟨-, -, hminor, hmajor, halloc⟩ := hr.reports_shortage
  refine ⟨s, l, hr, hminor.iff_short.mp ⟨_, h', he, trivial⟩,
    (hminor.eq_shortage _ h' he trivial).symm, hlarge, hsmall, hminor, hmajor,
    (halloc 1 4).1 _ hlarge, (halloc 1 1).2 ?_⟩
  rw [hset]
  exact hsmall

end Mutator

end Tenure
