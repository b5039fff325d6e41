import Tenure.Proofs.Effects

/-!
# Accounts

At the end of each phase a heap counts it and tells how many objects and bytes it has copied. What
is in use of the active half is settled by these reports: the bytes of the latest scavenge, and
those of the nursery epochs since then. Main statement: `Reaches.heap_accounted`.
-/

namespace Tenure

open Mutator (Instr)

/-- What is reported at the end of a phase. -/
structure Report where
  phase : Phase
  objects : Nat
  bytes : Nat
  deriving DecidableEq, Repr

/-- Is it about a scavenge? -/
def Report.isScavenge (r : Report) : Bool := r.phase ≠ .nurseryEpoch

/-- The report that an event is, if it is one. -/
def Event.report? : Event → Option Report
  | .finished phase objects bytes _ => some ⟨phase, objects, bytes⟩
  | _ => none

/-- The counters after a report. -/
def Statistics.add (st : Statistics) (r : Report) : Statistics :=
  match r.phase with
  | .nurseryEpoch => st.addMinor r.objects r.bytes
  | .concurrentScavenge => st.addScavenge true r.objects r.bytes
  | .scavenge => st.addScavenge false r.objects r.bytes

/-- The bytes that the latest scavenge has copied, none if there was no scavenge. -/
def bytesScavenged (rs : List Report) : Nat :=
  ((rs.reverse.find? Report.isScavenge).map Report.bytes).getD 0

/-- The bytes that the nursery epochs since the latest scavenge have promoted. -/
def bytesPromoted (rs : List Report) : Nat :=
  ((rs.reverse.takeWhile (!·.isScavenge)).map Report.bytes).sum

namespace Heap

/-- What the heap has reported so far. -/
def reports (h : Heap) : List Report := h.events.toList.filterMap Event.report?

/-- The reports account for what is in use of the active half and for the counters. -/
structure Accounted (h : Heap) : Prop where
  used : h.semispace.active.usedBytes = bytesScavenged h.reports + bytesPromoted h.reports
  counters : h.reports.foldl Statistics.add {} = { h.statistics with maxHeap := 0 }

/-- The active half is full enough for a scavenge that nobody asked for. -/
def IsFull (h : Heap) : Prop :=
  h.settings.threshold * h.semispace.active.capacity ≤ h.semispace.active.cursor * 100

instance (h : Heap) : Decidable h.IsFull := inferInstanceAs (Decidable (_ ≤ _))

/-- The active half has room for a whole nursery, as far as the heap can tell. -/
def hasHeadroom (h : Heap) : Bool := h.semispace.hasRoom h.nursery.region.capacityBytes

/-- Neither the counters nor the halves of the semispace have changed, and nothing was reported. -/
structure CountsNothing (h h' : Heap) : Prop where
  statistics : h'.statistics = h.statistics
  semispace : h'.semispace = h.semispace
  reports : h'.reports = h.reports

/-- A collection cycle on `h` has counted one nursery epoch, a concurrent scavenge if the active
half was full enough right after it, and another scavenge if there was no headroom even then. -/
def CountsCycle (h h' : Heap) : Prop :=
  ∃ h₁ h₂, promoteNursery h = .ok () h₁ ∧ scavengeOnThreshold h₁ = .ok () h₂ ∧
    h'.statistics.minor = h.statistics.minor + 1 ∧
    h'.statistics.concurrent = h.statistics.concurrent + (if h₁.IsFull then 1 else 0) ∧
    h'.statistics.scavenges = h.statistics.scavenges + (if h₂.hasHeadroom then 0 else 1)

/-- A major collection has counted one nursery epoch and one scavenge that is not concurrent. -/
structure CountsMajor (h h' : Heap) : Prop where
  minor : h'.statistics.minor = h.statistics.minor + 1
  concurrent : h'.statistics.concurrent = h.statistics.concurrent
  scavenges : h'.statistics.scavenges = h.statistics.scavenges + 1

/-- The operation ends in this heap, whether it fails or not. -/
def Leaves {α : Type} (op : HeapM α) (h h' : Heap) : Prop :=
  (∃ x, op h = .ok x h') ∨ ∃ e, op h = .error e h'

/-- An allocation has counted nothing, or one cycle that it has run, perhaps with more roots. -/
def CountsAllocation (h h' : Heap) : Prop :=
  CountsNothing h h' ∨ ∃ h₀ h₁, h₀ = { h with roots := h₀.roots } ∧ Leaves collect h₀ h₁ ∧
    CountsCycle h₀ h₁ ∧ CountsNothing h₁ h'

/-- What an instruction counts. -/
def Counts (h h' : Heap) : Instr → Prop
  | .allocate .. | .allocateUnder .. => CountsAllocation h h'
  | .minorCollection => CountsCycle h h'
  | .majorCollection => CountsMajor h h'
  | _ => CountsNothing h h'

/-- A phase has ended with this report. -/
structure Reported (h : Heap) (r : Report) (h' : Heap) : Prop where
  reports : h'.reports = h.reports ++ [r]
  statistics : h'.statistics = h.statistics.add r
  used : h'.semispace.active.usedBytes =
    if r.isScavenge then r.bytes else h.semispace.active.usedBytes + r.bytes

/-- The operation reports nothing. -/
def Silent {α : Type} (op : HeapM α) : Prop :=
  ∀ h, Ends op h (fun _ h' ↦ h'.reports = h.reports) (fun _ _ ↦ True)

variable {h h' h'' : Heap} {l l' : Census} {os : List Span} {r : Report} {rs : List Report}
  {a : Nat} {α β : Type} {op : HeapM α} {k : α → HeapM β}

/-! ### Reports and counters -/

private theorem bytesScavenged_concat :
    bytesScavenged (rs ++ [r]) = if r.isScavenge then r.bytes else bytesScavenged rs := by
  simp only [bytesScavenged, List.reverse_append, List.reverse_singleton, List.singleton_append,
    List.find?_cons]
  cases r.isScavenge <;> rfl

private theorem bytesPromoted_concat :
    bytesPromoted (rs ++ [r]) = if r.isScavenge then 0 else bytesPromoted rs + r.bytes := by
  simp only [bytesPromoted, List.reverse_append, List.reverse_singleton, List.singleton_append,
    List.takeWhile_cons]
  cases r.isScavenge with
  | true => rfl
  | false =>
    simp only [Bool.not_false, if_true, Bool.false_eq_true, if_false, List.map_cons, List.sum_cons]
    exact Nat.add_comm _ _

private theorem minor_add (st : Statistics) :
    (st.add r).minor = st.minor + if r.phase = .nurseryEpoch then 1 else 0 := by
  unfold Statistics.add
  split <;> simp_all [Statistics.addMinor, Statistics.addScavenge]

private theorem concurrent_add (st : Statistics) :
    (st.add r).concurrent = st.concurrent + if r.phase = .concurrentScavenge then 1 else 0 := by
  unfold Statistics.add
  split <;> simp_all [Statistics.addMinor, Statistics.addScavenge]

private theorem scavenges_add (st : Statistics) :
    (st.add r).scavenges = st.scavenges + if r.phase = .scavenge then 1 else 0 := by
  unfold Statistics.add
  split <;> simp_all [Statistics.addMinor, Statistics.addScavenge]

private theorem maxHeap_add (st : Statistics) : (st.add r).maxHeap = st.maxHeap := by
  unfold Statistics.add
  split <;> rfl

/-- The largest heap size plays no part in the other counters. -/
theorem add_maxHeap (st : Statistics) (n : Nat) :
    { st with maxHeap := n }.add r = { st.add r with maxHeap := n } := by
  unfold Statistics.add
  split <;> rfl

/-- A report keeps the accounts. -/
theorem Accounted.reported (ha : h.Accounted) (hr : Reported h r h') : h'.Accounted where
  used := by
    rw [hr.used, hr.reports, bytesScavenged_concat, bytesPromoted_concat, ha.used]
    split <;> omega
  counters := by
    rw [hr.reports, List.foldl_append, List.foldl_cons, List.foldl_nil, ha.counters, hr.statistics,
      add_maxHeap]

private theorem CountsNothing.trans (hn : CountsNothing h h') (hn' : CountsNothing h' h'') :
    CountsNothing h h'' :=
  ⟨hn'.statistics.trans hn.statistics, hn'.semispace.trans hn.semispace,
    hn'.reports.trans hn.reports⟩

/-- The accounts stay as they are if nothing is counted. -/
theorem Accounted.of_countsNothing (ha : h.Accounted) (hn : CountsNothing h h') :
    h'.Accounted where
  used := by rw [hn.semispace, hn.reports, ha.used]
  counters := by rw [hn.statistics, hn.reports, ha.counters]

/-! ### Operations that report nothing -/

private theorem Silent.bind (hx : Silent op) (hk : ∀ b, Silent (k b)) : Silent (op >>= k) := fun h ↦
  (hx h).bind fun b h' he ↦ by
    rw [← he]
    exact hk b h'

private theorem silent_pure (b : α) : Silent (pure b) := fun _ ↦ rfl

private theorem silent_ask (f : Heap → α) : Silent (ask f) := fun _ ↦ rfl

private theorem silent_throw (e : Fault) : Silent (throw e : HeapM α) := fun _ ↦ trivial

private theorem silent_change {f : Heap → Heap} (hf : ∀ h, (f h).events = h.events) :
    Silent (change f) := fun h ↦ by
  show (f h).reports = h.reports
  rw [reports, reports, hf]

/-- An event that is no report. -/
theorem silent_tell {event : Event} (he : event.report? = none) : Silent (tell event) := by
  intro h
  show List.filterMap _ (h.events.push event).toList = _
  rw [Array.toList_push, List.filterMap_append, List.filterMap_cons, he, List.filterMap_nil,
    List.append_nil]
  rfl

private theorem silent_runPass {source target : Heap → Region} {update : Heap → Region → Heap}
    {pass : Evacuation → CopyM α} (hu : ∀ h r, (update h r).events = h.events) :
    Silent (runPass source target update pass) := by
  intro h
  unfold Ends runPass
  simp only
  split
  · next a s he =>
    split at he
    · cases he
      rw [reports, reports, hu]
    · cases he
  · trivial

private theorem silent_promoting {pass : Evacuation → CopyM α} : Silent (promoting pass) :=
  silent_runPass fun _ _ ↦ rfl

private theorem silent_addPromoted {tally : Tally} : Silent (addPromoted tally) :=
  silent_change fun _ ↦ rfl

private theorem silent_mapM {γ : Type} {xs : List γ} {step : γ → HeapM β}
    (hs : ∀ x, Silent (step x)) :
    Silent (xs.mapM step) := by
  intro h
  refine Ends.mapM (fun _ _ (h' : Heap) ↦ h'.reports = h.reports) rfl fun _ _ x _ h' _ he ↦ ?_
  rw [← he]
  exact hs x h'

private theorem silent_promote : Silent (promote a) := by
  refine (silent_ask _).bind fun isNone ↦ ?_
  split
  · exact silent_throw _
  · exact silent_promoting.bind fun _ ↦ silent_addPromoted.bind fun _ ↦ silent_pure _

private theorem silent_promoteRoots : Silent promoteRoots :=
  (silent_ask _).bind fun _ ↦
    ((silent_mapM fun _ ↦ silent_promote).bind fun _ ↦ silent_pure _).bind fun _ ↦
      silent_change fun _ ↦ rfl

private theorem silent_beginEpoch : Silent beginEpoch := by
  refine (silent_ask _).bind fun remembered ↦ (silent_ask _).bind fun isSome ↦ ?_
  split
  · exact silent_throw _
  · exact (silent_change (by intro; rfl)).bind fun _ ↦ (silent_ask _).bind fun _ ↦
      (silent_tell (by rfl)).bind fun _ ↦ silent_promoting.bind fun _ ↦ silent_addPromoted

private theorem silent_endEpoch : Silent endEpoch := by
  refine (silent_ask _).bind fun epoch ↦ ?_
  cases epoch with
  | none => exact silent_throw _
  | some epoch =>
    exact silent_promoting.bind fun ⟨_, _⟩ ↦ (silent_change (by intro; rfl)).bind fun _ ↦
      silent_pure _

private theorem silent_epoch : Silent epoch :=
  silent_beginEpoch.bind fun _ ↦ silent_promoteRoots.bind fun _ ↦ silent_endEpoch

private theorem silent_scavenge : Silent scavenge :=
  (silent_ask _).bind fun _ ↦ (silent_ask _).bind fun _ ↦
    (silent_runPass (by intros; rfl)).bind fun ⟨_, _⟩ ↦ (silent_change (by intro; rfl)).bind fun _ ↦
      (silent_tell (by rfl)).bind fun _ ↦ silent_pure _

/-! ### Phases -/

-- A phase that has changed the active half as its report says, and then counts and reports.
private theorem ends_count_report {tally : Tally} {phase : Phase} {bad : Fault → Heap → Prop}
    (hreports : h'.reports = h.reports) (hstat : h'.statistics = h.statistics)
    (hused : h'.semispace.active.usedBytes =
      if Report.isScavenge ⟨phase, tally.objects, tally.bytes⟩ then tally.bytes
      else h.semispace.active.usedBytes + tally.bytes) :
    Ends (do count (·.add ⟨phase, tally.objects, tally.bytes⟩); report phase tally) h'
      (fun _ h'' ↦ Reported h ⟨phase, tally.objects, tally.bytes⟩ h'') bad := by
  refine ⟨?_, ?_, hused⟩
  · show List.filterMap _ (Array.push _ _).toList = _
    rw [Array.toList_push, List.filterMap_append]
    exact congrArg (· ++ _) hreports
  · show h'.statistics.add _ = _
    rw [hstat]

/-- A nursery epoch adds to what is in use of the active half. -/
theorem ends_promoteNursery_reported (hs : h.Sound l) :
    Ends promoteNursery h (fun _ h' ↦ ∃ r, r.phase = .nurseryEpoch ∧ Reported h r h')
      (fun _ _ ↦ True) := by
  rw [promoteNursery_eq]
  refine (((ends_epoch hs).and (silent_epoch h)).mono (fun _ _ hg ↦ hg)
    fun _ _ _ ↦ trivial).bind ?_
  rintro tally h₁ ⟨⟨cs, m, -, -, hwords, hstat⟩, hreports⟩
  refine (ends_count_report hreports hstat ?_).imp fun _ _ hr ↦ ⟨_, rfl, hr⟩
  rw [if_neg (by simp [Report.isScavenge]), Region.usedBytes, Region.usedBytes, ← hwords,
    Nat.add_mul]
  exact Nat.add_comm _ _

private theorem ends_scavenge_reported {bad : Fault → Heap → Prop}
    (hs : h.Sound { old := os }) :
    Ends scavenge h (fun tally h' ↦ h'.reports = h.reports ∧ h'.statistics = h.statistics ∧
      h'.semispace.active.usedBytes = tally.bytes) bad := by
  obtain ⟨tally, h', he, cs, m, -, hstat, rfl⟩ := (ends_scavenge hs).exists_eq_ok
  rw [ends_iff_of_eq_ok he]
  exact ⟨(silent_scavenge h).of_eq_ok he, hstat, rfl⟩

private theorem ends_scavengeForRoom_reported {bad : Fault → Heap → Prop}
    (hs : h.Sound { old := os }) :
    Ends scavengeForRoom h (fun _ h' ↦ ∃ r, r.phase = .scavenge ∧ Reported h r h') bad := by
  rw [scavengeForRoom]
  refine (ends_scavenge_reported hs).bind ?_
  rintro tally h₁ ⟨hreports, hstat, hused⟩
  exact (ends_count_report hreports hstat (by rw [hused]; rfl)).imp fun _ _ hr ↦ ⟨_, rfl, hr⟩

private theorem ends_scavengeOnThreshold_reported {bad : Fault → Heap → Prop}
    (hs : h.Sound { old := os }) :
    Ends scavengeOnThreshold h
      (fun _ h' ↦ if h.IsFull then ∃ r, r.phase = .concurrentScavenge ∧ Reported h r h'
        else CountsNothing h h') bad := by
  rw [scavengeOnThreshold, scavengeIfFull, bind_assoc, ends_ask_bind, bind_assoc, ends_ask_bind]
  split
  · next hlt =>
    have hfull : ¬ h.IsFull := Nat.not_le.mpr hlt
    simp only [if_neg hfull]
    rw [bind_assoc, ends_tell_bind]
    exact ⟨rfl, rfl, silent_tell rfl h⟩
  · next hle =>
    have hfull : h.IsFull := Nat.not_lt.mp hle
    simp only [if_pos hfull]
    rw [bind_assoc]
    refine (ends_scavenge_reported hs).bind ?_
    rintro tally h₁ ⟨hreports, hstat, hused⟩
    rw [pure_bind]
    exact (ends_count_report hreports hstat (by rw [hused]; rfl)).imp fun _ _ hr ↦ ⟨_, rfl, hr⟩

/-! ### Collections -/

private theorem Sound.exists_epoch_reported (hs : h.Sound l) (hroom : h.Headroom) :
    ∃ h₁ l₁ r, promoteNursery h = .ok () h₁ ∧ Collected h l h₁ l₁ ∧ r.phase = .nurseryEpoch ∧
      Reported h r h₁ := by
  obtain ⟨h₁, l₁, he, hc⟩ := hs.exists_promoted hroom
  obtain ⟨r, hp, hr⟩ := (ends_promoteNursery_reported hs).of_eq_ok he
  exact ⟨h₁, l₁, r, he, hc, hp, hr⟩

private theorem Collected.exists_threshold_reported (hc : Collected h l h' l') :
    ∃ h₂ l₂, scavengeOnThreshold h' = .ok () h₂ ∧ Collected h l h₂ l₂ ∧
      if h'.IsFull then ∃ r, r.phase = .concurrentScavenge ∧ Reported h' r h₂
        else CountsNothing h' h₂ := by
  obtain ⟨_, h₂, he, ⟨l₂, hc₂⟩, -⟩ := (ends_scavengeOnThreshold hc).exists_eq_ok
  obtain ⟨_, _, he', hr⟩ := (ends_scavengeOnThreshold_reported hc.sound_old).exists_eq_ok
  cases he.symm.trans he'
  exact ⟨h₂, l₂, he, hc₂, hr⟩

/-- The accounts are kept, and the largest heap size is as it was. -/
private structure Keeps (h h' : Heap) : Prop where
  accounted : h.Accounted → h'.Accounted
  maxHeap : h'.statistics.maxHeap = h.statistics.maxHeap

private theorem Reported.keeps (hr : Reported h r h') : Keeps h h' :=
  ⟨fun ha ↦ ha.reported hr, by rw [hr.statistics, maxHeap_add]⟩

private theorem CountsNothing.keeps (hn : CountsNothing h h') : Keeps h h' :=
  ⟨fun ha ↦ ha.of_countsNothing hn, by rw [hn.statistics]⟩

private theorem Keeps.trans (hk : Keeps h h') (hk' : Keeps h' h'') : Keeps h h'' :=
  ⟨fun ha ↦ hk'.accounted (hk.accounted ha), hk'.maxHeap.trans hk.maxHeap⟩

private theorem exists_cycle_opened (hs : h.Sound l) (hroom : h.Headroom) :
    ∃ h₁ h₂ l₂, promoteNursery h = .ok () h₁ ∧ scavengeOnThreshold h₁ = .ok () h₂ ∧
      Collected h l h₂ l₂ ∧ Keeps h h₂ ∧
      h₂.statistics.minor = h.statistics.minor + 1 ∧
      h₂.statistics.concurrent = h.statistics.concurrent + (if h₁.IsFull then 1 else 0) ∧
      h₂.statistics.scavenges = h.statistics.scavenges := by
  obtain ⟨h₁, l₁, r, he₁, hc₁, hp, hr⟩ := hs.exists_epoch_reported hroom
  obtain ⟨h₂, l₂, he₂, hc₂, hr₂⟩ := hc₁.exists_threshold_reported
  refine ⟨h₁, h₂, l₂, he₁, he₂, hc₂, ?_⟩
  split at hr₂
  · next hfull =>
    obtain ⟨r', hp', hr'⟩ := hr₂
    refine ⟨hr.keeps.trans hr'.keeps, ?_⟩
    simp [hr'.statistics, hr.statistics, minor_add, concurrent_add, scavenges_add, hp, hp', hfull]
  · next hfull =>
    refine ⟨hr.keeps.trans hr₂.keeps, ?_⟩
    simp [hr₂.statistics, hr.statistics, minor_add, concurrent_add, scavenges_add, hp, hfull]

/-- With headroom, a cycle keeps the accounts and counts its phases, whether it fails or not. If it
does not, it takes note of the size of the heap. -/
theorem ends_collect_counts (hs : h.Sound l) (hroom : h.Headroom) :
    Ends collect h
      (fun _ h' ↦ (h.Accounted → h'.Accounted) ∧ CountsCycle h h' ∧ h'.statistics.maxHeap =
        max h.statistics.maxHeap h'.semispace.active.usedBytes)
      (fun _ h' ↦ (h.Accounted → h'.Accounted) ∧ CountsCycle h h' ∧
        h'.statistics.maxHeap = h.statistics.maxHeap) := by
  obtain ⟨h₁, h₂, l₂, he₁, he₂, hc₂, hk, hminor, hconcurrent, hscavenges⟩ :=
    exists_cycle_opened hs hroom
  -- Both ways through the cycle end with a note of the heap size, unless there is no headroom.
  have hfinish : ∀ {h₃}, Keeps h h₃ → CountsCycle h h₃ →
      Ends (do count (·.heapSize (← ask (·.semispace.active.usedBytes)))) h₃
        (fun _ h' ↦ (h.Accounted → h'.Accounted) ∧ CountsCycle h h' ∧ h'.statistics.maxHeap =
          max h.statistics.maxHeap h'.semispace.active.usedBytes)
        (fun _ h' ↦ (h.Accounted → h'.Accounted) ∧ CountsCycle h h' ∧
          h'.statistics.maxHeap = h.statistics.maxHeap) := fun {h₃} hk₃ hc₃ ↦
    ⟨fun ha ↦ ⟨(hk₃.accounted ha).used, (hk₃.accounted ha).counters⟩, hc₃,
      congrArg (max · _) hk₃.maxHeap⟩
  rw [collect, ends_bind_iff, ends_iff_of_eq_ok he₁, ends_bind_iff, ends_iff_of_eq_ok he₂,
    ends_ask_bind]
  split
  · next hno =>
    have hno : h₂.hasHeadroom = false := by simpa [hasHeadroom] using hno
    refine (ends_scavengeForRoom_reported hc₂.sound_old).bind ?_
    rintro _ h₃ ⟨r, hp, hr⟩
    have hk₃ := hk.trans hr.keeps
    have hc₃ : CountsCycle h h₃ := by
      refine ⟨h₁, h₂, he₁, he₂, ?_⟩
      simp [hr.statistics, minor_add, concurrent_add, scavenges_add, hp, hno, hminor, hconcurrent,
        hscavenges]
    refine (ends_requireHeadroom.mono (fun _ _ hg ↦ hg) ?_).bind ?_
    · rintro e _ ⟨rfl, -⟩
      exact ⟨hk₃.accounted, hc₃, hk₃.maxHeap⟩
    · rintro _ _ ⟨rfl, -⟩
      exact hfinish hk₃ hc₃
  · next hyes =>
    have hyes : h₂.hasHeadroom = true := by simpa [hasHeadroom] using hyes
    refine hfinish hk ⟨h₁, h₂, he₁, he₂, hminor, hconcurrent, ?_⟩
    simp [hyes, hscavenges]

/-- A major collection keeps the accounts, but takes no note of the size of the heap. -/
theorem ends_majorCollection_counts (hs : h.Sound l) (hroom : h.Headroom) :
    Ends majorCollection h
      (fun _ h' ↦ (h.Accounted → h'.Accounted) ∧ CountsMajor h h' ∧
        h'.statistics.maxHeap = h.statistics.maxHeap)
      (fun _ h' ↦ (h.Accounted → h'.Accounted) ∧ CountsMajor h h' ∧
        h'.statistics.maxHeap = h.statistics.maxHeap) := by
  obtain ⟨h₁, l₁, r₁, he₁, hc₁, hp₁, hr₁⟩ := hs.exists_epoch_reported hroom
  rw [majorCollection, ends_bind_iff, ends_iff_of_eq_ok he₁]
  refine (ends_scavengeForRoom_reported hc₁.sound_old).bind ?_
  rintro _ h₂ ⟨r₂, hp₂, hr₂⟩
  have hk := hr₁.keeps.trans hr₂.keeps
  have hm : CountsMajor h h₂ := by
    constructor <;> simp [hr₂.statistics, hr₁.statistics, minor_add, concurrent_add, scavenges_add,
      hp₁, hp₂]
  refine ends_requireHeadroom.mono ?_ ?_
  · rintro _ _ ⟨rfl, -⟩
    exact ⟨hk.accounted, hm, hk.maxHeap⟩
  · rintro _ _ ⟨rfl, -⟩
    exact ⟨hk.accounted, hm, hk.maxHeap⟩

/-! ### Instructions -/

/-- An edit counts nothing. -/
theorem CountsNothing.edits (he : Edits h l h') : CountsNothing h h' := by
  cases he with
  | rerooted hr => rw [hr.heap]; exact ⟨rfl, rfl, rfl⟩
  | stored hst _ => rw [hst.heap]; exact ⟨rfl, rfl, rfl⟩
  | redirected hr => rw [hr.heap]; exact ⟨rfl, rfl, rfl⟩

/-- Another order of the remembered set counts nothing. -/
theorem CountsNothing.reordered (ho : h.Reordered h') : CountsNothing h h' := by
  rw [ho.heap]
  exact ⟨rfl, rfl, rfl⟩

private theorem CountsNothing.placed {f : Form} (hp : Placed h f a h') : CountsNothing h h' := by
  rw [hp.heap]
  exact ⟨rfl, rfl, rfl⟩

/-- Roots that are made count nothing. -/
theorem CountsNothing.holding (n : Nat) : CountsNothing h (h.holding a n) := ⟨rfl, rfl, rfl⟩

private theorem CountsNothing.cutTo (n : Nat) : CountsNothing h (h.cutTo n) := ⟨rfl, rfl, rfl⟩

/-- An allocation counts nothing once it has room. -/
theorem CountsNothing.closed {n : Nat} (hp : h'' = h' ∨ ∃ f b, Placed h' f b h'') :
    CountsNothing h' (h''.cutTo n) := by
  rcases hp with rfl | ⟨f, b, hp⟩
  · exact .cutTo n
  · exact (CountsNothing.placed hp).trans (.cutTo n)

/-- What an allocation counts, and that it keeps the accounts. -/
theorem Allocates.counts (hs : h.Sound l) (hroom : h.Headroom) (ha : Allocates h l h') :
    (h.Accounted → h'.Accounted) ∧ CountsAllocation h h' := by
  obtain ⟨a, n, h₁, h₂, hre, hsup, hp, rfl⟩ := ha
  have hn : CountsNothing h₁ (h₂.cutTo h.roots.size) := .closed hp
  have hh : CountsNothing h (h.holding a n) := .holding n
  rcases hsup with rfl | hc
  · exact ⟨fun hacc ↦ hacc.of_countsNothing (hh.trans hn), .inl (hh.trans hn)⟩
  · obtain ⟨hacc, hcycle, -⟩ :=
      (ends_collect_counts (hre.sound hs) (hre.headroom hs hroom)).of_eq_ok hc
    exact ⟨fun ha ↦ (hacc (ha.of_countsNothing hh)).of_countsNothing hn,
      .inr ⟨_, h₁, rfl, .inl ⟨_, hc⟩, hcycle, hn⟩⟩

private theorem FailsToSupply.counts {e : Fault} (hs : h.Sound l) (hroom : h.Headroom)
    (hf : FailsToSupply h l e h') : (h.Accounted → h'.Accounted) ∧ CountsAllocation h h' := by
  obtain ⟨a, n, h₁, hre, hc, rfl⟩ := hf
  obtain ⟨hacc, hcycle, -⟩ :=
    (ends_collect_counts (hre.sound hs) (hre.headroom hs hroom)).of_eq_error hc
  exact ⟨fun ha ↦ (hacc (ha.of_countsNothing (.holding n))).of_countsNothing (.cutTo _),
    .inr ⟨_, h₁, rfl, .inr ⟨_, hc⟩, hcycle, .cutTo _⟩⟩

private theorem Effect.counts {instr : Instr} (hs : h.Sound l) (hroom : h.Headroom)
    (he : h.Effect l h' instr) : (h.Accounted → h'.Accounted) ∧ h.Counts h' instr := by
  cases instr with
  | allocate => exact Allocates.counts hs hroom he
  | allocateUnder => exact Allocates.counts hs hroom he
  | minorCollection =>
    obtain ⟨hacc, hc, -⟩ := (ends_collect_counts hs hroom).of_eq_ok he
    exact ⟨hacc, hc⟩
  | majorCollection =>
    obtain ⟨hacc, hc, -⟩ := (ends_majorCollection_counts hs hroom).of_eq_ok he
    exact ⟨hacc, hc⟩
  | _ =>
    have hn : CountsNothing h h' := .edits he
    exact ⟨fun ha ↦ ha.of_countsNothing hn, hn⟩

private theorem Overruns.counts {instr : Instr} {e : Fault} (hs : h.Sound l) (hroom : h.Headroom)
    (ho : h.Overruns l e h' instr) : (h.Accounted → h'.Accounted) ∧ h.Counts h' instr := by
  cases instr with
  | allocate => exact FailsToSupply.counts hs hroom ho
  | allocateUnder => exact FailsToSupply.counts hs hroom ho
  | minorCollection =>
    obtain ⟨hacc, hc, -⟩ := (ends_collect_counts hs hroom).of_eq_error ho
    exact ⟨hacc, hc⟩
  | majorCollection =>
    obtain ⟨hacc, hc, -⟩ := (ends_majorCollection_counts hs hroom).of_eq_error ho
    exact ⟨hacc, hc⟩
  | _ => exact ho.elim

/-- Nothing is in use of a new heap, and nothing was reported. -/
theorem accounted_of_create {settings : Settings} {table : TypeTable}
    (hc : create settings table = .ok h) : h.Accounted := by
  have hr : h.reports = [] := by
    simp only [create, bind, Except.bind] at hc
    split at hc
    · cases hc
    · cases hl : layOut settings table with
      | error e => simp [hl] at hc
      | ok h₀ =>
        simp only [hl, pure, Except.pure] at hc
        cases hc
        rfl
  obtain ⟨_, active, _, _, _, _, _, -, -, hactive, -, rfl⟩ := eq_of_create hc
  exact ⟨by rw [Region.usedBytes, hactive.cursor, hr]; rfl, by rw [hr]; rfl⟩

end Heap

namespace Mutator

variable {settings : Settings} {table : TypeTable} {s : Session} {l : Census}

/-- An instruction keeps the accounts and counts its collections, also if it stops. -/
theorem ends_run_counts (hs : s.Sound l) (hroom : s.heap.Headroom) (instr : Instr)
    (register : Option String) :
    Ends (run instr register) s
      (fun _ s' ↦ (s.heap.Accounted → s'.heap.Accounted) ∧ s.heap.Counts s'.heap instr)
      (fun _ s' ↦ (s.heap.Accounted → s'.heap.Accounted) ∧ s.heap.Counts s'.heap instr) := by
  refine (ends_run_effect hs hroom instr register).mono (fun _ s' he ↦ he.counts hs.heap hroom) ?_
  rintro e s' (he | ⟨f, -, -, ho⟩)
  · exact he.counts hs.heap hroom
  · exact ho.counts hs.heap hroom

/-- In every session that a program can reach, the reports account for what is in use of the active
half and for the counters. The next instruction counts the collections that it runs and nothing
else, and the accounts are right after it even if it finds the heap exhausted. -/
theorem Reaches.heap_accounted (hr : Reaches settings table s l) :
    s.heap.Accounted ∧ ∀ instr register, Ends (run instr register) s
      (fun _ s' ↦ s'.heap.Accounted ∧ s.heap.Counts s'.heap instr)
      (fun _ s' ↦ s'.heap.Accounted ∧ s.heap.Counts s'.heap instr) := by
  suffices ha : s.heap.Accounted from ⟨ha, fun instr register ↦
    (ends_run_counts hr.sound hr.headroom instr register).mono
      (fun _ _ ⟨hacc, hc⟩ ↦ ⟨hacc ha, hc⟩) fun _ _ ⟨hacc, hc⟩ ↦ ⟨hacc ha, hc⟩⟩
  induction hr with
  | start hc => exact Heap.accounted_of_create hc
  | @reply s s' l instr register r hr he ih =>
    exact ((ends_run_counts hr.sound hr.headroom instr register).of_eq_ok he).1 ih
  | @stop s s' l instr register e hr he hx ih =>
    exact ((ends_run_counts hr.sound hr.headroom instr register).of_eq_error he).1 ih
  | reorder _ ho ih => exact ih.of_countsNothing (.reordered ho)

/-- A longer run, with a major collection and an epoch after it. -/
def Sample.busyProgram : List (Instr × Option String) := Sample.program ++
  [(.majorCollection, none), (.allocate 1 1 none, some "fifth"),
    (.makeRoot (.register "fifth"), none), (.minorCollection, none)]

private theorem Sample.busyProgram_isSome : (endOf smallSettings busyProgram).isSome = true := by
  decide +kernel

/-- A run after which the bytes of a scavenge and of an epoch are in use. -/
theorem accounted_sample : ∃ s l, Reaches Sample.smallSettings Sample.nodeTable s l ∧
    s.heap.reports = [⟨.nurseryEpoch, 2, 72⟩, ⟨.nurseryEpoch, 1, 48⟩, ⟨.scavenge, 2, 88⟩,
      ⟨.nurseryEpoch, 1, 40⟩] ∧
    s.heap.semispace.active.usedBytes = 128 ∧ s.heap.Accounted ∧
    Ends (run .majorCollection none) s
      (fun _ s' ↦ s'.heap.Accounted ∧ s.heap.CountsMajor s'.heap)
      (fun _ s' ↦ s'.heap.Accounted ∧ s.heap.CountsMajor s'.heap) := by
  obtain ⟨s, l, hs, hr⟩ := Sample.reaches_of_isSome Sample.busyProgram_isSome
  have hv : (Sample.endOf Sample.smallSettings Sample.busyProgram).map (fun s ↦
      (s.heap.reports, s.heap.semispace.active.usedBytes)) =
      some ([⟨.nurseryEpoch, 2, 72⟩, ⟨.nurseryEpoch, 1, 48⟩, ⟨.scavenge, 2, 88⟩,
        ⟨.nurseryEpoch, 1, 40⟩], 128) := by
    decide +kernel
  rw [hs, Option.map_some, Option.some.injEq, Prod.mk.injEq] at hv
  exact ⟨s, l, hr, hv.1, hv.2, hr.heap_accounted.1, hr.heap_accounted.2 .majorCollection none⟩

end Mutator

end Tenure
