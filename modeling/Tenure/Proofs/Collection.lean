import Tenure.Heap.Collect
import Tenure.Proofs.Census
import Tenure.Proofs.Epoch
import Tenure.Proofs.Faults
import Tenure.Proofs.Pass.Room
import Tenure.Proofs.Survivors

/-!
# Collection cycles

A cycle is an epoch and up to two scavenges. Each leaves the graph that the roots reach as it was,
so the cycle does. A cycle that succeeds leaves room for a whole nursery in the active half, and the
next one starts with that, so the only thing that can go wrong in it is that the live objects leave
too little room at its end. Main statements: `ends_collect` and `ends_majorCollection`, a cycle ends
as described by `Collected`, or it is exhausted as described by `Spent`.
-/

namespace Tenure

namespace Heap

/-- What a collection makes of a heap. -/
structure Collected (h : Heap) (l : Census) (h' : Heap) (l' : Census) : Prop where
  sound : h'.Sound l'
  young : l'.young = []
  remembered : h'.nursery.remembered = []
  nursery : h'.nursery.region = h.nursery.region.reset
  capacity : h'.semispace.active.capacity = h.semispace.active.capacity
  /-- The roots do not refer to indirections. -/
  direct : ∀ a ∈ h'.roots.toList, h'.memory.hop? a = none
  epochs : h.epochs < h'.epochs
  old : h'.swaps = h.swaps ∧ h'.semispace.active.start = h.semispace.active.start ∧
      (∃ xs, l'.old = l.old ++ xs ∧ ∀ s ∈ xs, ∃ f, h'.Object l' s f) ∨
    h.swaps < h'.swaps ∧ ∀ s ∈ l'.old, ∃ f, h'.Object l' s f
  graph : ∃ φ, SameGraph φ h h'

/-- A collection of `h` has left just the live objects, and these do not leave the room in `h'` that
is needed. -/
structure Spent (h : Heap) (l : Census) (e : Fault) (h' : Heap) : Prop where
  collected : ∃ l', Collected h l h' l'
  cursor : h'.semispace.active.cursor = h.liveWords
  fault : requireHeadroom h' = .error e h'

/-- The heap is exhausted. If there was headroom before, it is the check for headroom that says
so. -/
def Exhausts (h : Heap) (e : Fault) (h' : Heap) : Prop :=
  e.IsExhausted ∧ (h.Headroom → requireHeadroom h' = .error e h')

variable {h h' h'' : Heap} {l l' : Census} {os : List Span} {cs : Copies} {m : Memory} {e : Fault}

private theorem Origin.Stuck.isExhausted {o : Origin} {st : CopyState} (h : o.Stuck e st) :
    e.IsExhausted := by
  obtain ⟨cs, d, f, -, -, -, -, -, -, rfl⟩ := h
  trivial

private theorem EpochStuck.isExhausted (h : EpochStuck h' l e) : e.IsExhausted := by
  obtain ⟨st, h⟩ := h
  exact Origin.Stuck.isExhausted h

/-- The check for room is the headroom inequality. -/
theorem hasRoom_iff :
    h.semispace.hasRoom h.nursery.region.capacityBytes = true ↔ h.Headroom := decide_eq_true_iff

/-- An epoch needs no more room than a whole nursery. -/
theorem EpochStuck.not_headroom (hs : h.Sound l) (he : EpochStuck h l e) : ¬ h.Headroom := by
  intro hr
  obtain ⟨st, hstuck⟩ := he
  have hlt : h.semispace.active.free < h.nursery.region.cursor := hstuck.lt hs.epochOrigin
  have := h.nursery.region.cursor_le
  simp only [Headroom, Region.capacityBytes, Region.freeBytes, wordBytes] at hr
  omega

/-- The census after a collection follows that before it. -/
theorem Collected.follows (hc : Collected h l h' l') : Follows h l h' l' where
  young := .inr ⟨Nat.ne_of_gt hc.epochs, by rw [hc.young]; simp⟩
  old := by
    rcases hc.old with ho | ⟨hlt, ho⟩
    · exact .inl ho
    · exact .inr ⟨Nat.ne_of_gt hlt, ho⟩

/-- After a collection the nursery is empty. -/
theorem Collected.sound_old (hc : Collected h l h' l') : h'.Sound { old := l'.old } := by
  have hl : l' = { old := l'.old } := by
    cases l'
    simp only [Census.mk.injEq, and_true]
    exact hc.young
  rw [← hl]
  exact hc.sound

/-- A heap that differs in events and other counters is collected as well. -/
theorem Collected.of_sameStore (hc : Collected h l h' l') (he : SameStore h' h'')
    (hep : h''.epochs = h'.epochs) (hsw : h''.swaps = h'.swaps) : Collected h l h'' l' := by
  have hobj : ∀ s f, h'.Object l' s f → h''.Object l' s f := by
    intro s f hf
    rw [Object, he.table, he.memory]
    exact hf
  refine ⟨hc.sound.of_sameStore he, hc.young, by rw [he.nursery, hc.remembered],
    by rw [he.nursery, hc.nursery], by rw [he.semispace, hc.capacity],
    by rw [he.roots, he.memory]; exact hc.direct, by rw [hep]; exact hc.epochs, ?_, ?_⟩
  · rcases hc.old with ⟨hs, hst, xs, hxs, hd⟩ | ⟨hlt, hd⟩
    · refine .inl ⟨hsw.trans hs, by rw [he.semispace, hst], xs, hxs, fun s hm ↦ ?_⟩
      obtain ⟨f, hf⟩ := hd s hm
      exact ⟨f, hobj s f hf⟩
    · refine .inr ⟨by rw [hsw]; exact hlt, fun s hm ↦ ?_⟩
      obtain ⟨f, hf⟩ := hd s hm
      exact ⟨f, hobj s f hf⟩
  · obtain ⟨φ, hg⟩ := hc.graph
    exact ⟨φ, hg.of_sameStore he⟩

private theorem direct_copies {o : Origin} {target : Region} (ho : o.Sound)
    (hov : o.Over cs m target) (hw : o.Swept m h'.memory) (ht : h'.table = o.pass.table)
    (hl : l'.objects = o.arrived cs) :
    ∀ s ∈ cs.map Prod.snd, ∃ f, h'.Object l' s f := by
  intro t hm
  obtain ⟨⟨s, t⟩, hc, rfl⟩ := List.mem_map.mp hm
  obtain ⟨-, k, hk, -⟩ := hov.holds.plan.object _ hc
  refine ⟨o.pass.shape k, ?_⟩
  rw [Object, ht, hl]
  exact (hov.direct_iff ho hw).mpr ⟨s, k, .copied hc hk⟩

/-- A promotion does not depend on counters and events. -/
theorem Promoted.of_sameStore (hp : Promoted h l cs m h') (he : SameStore h' h'') :
    Promoted h l cs m h'' where
  pass := by rw [he.semispace]; exact hp.pass
  memory := he.memory.trans hp.memory
  table := he.table.trans hp.table
  settings := he.settings.trans hp.settings
  nursery := he.nursery.trans hp.nursery
  reserve := by rw [he.semispace]; exact hp.reserve
  roots := by rw [he.roots]; exact hp.roots
  clean := hp.clean

/-- A scavenge does not depend on counters and events. -/
theorem Scavenged.of_sameStore (hp : Scavenged h os cs m h') (he : SameStore h' h'') :
    Scavenged h os cs m h'' where
  pass := by rw [he.semispace]; exact hp.pass
  memory := he.memory.trans hp.memory
  table := he.table.trans hp.table
  settings := he.settings.trans hp.settings
  nursery := he.nursery.trans hp.nursery
  reserve := by rw [he.semispace]; exact hp.reserve
  roots := by rw [he.roots]; exact hp.roots
  clean := hp.clean
  order := hp.order

/-- An epoch is a collection. -/
theorem Promoted.collected (hs : h.Sound l) (hp : Promoted h l cs m h')
    (hep : h.epochs < h'.epochs) (hsw : h'.swaps = h.swaps) :
    Collected h l h' { old := (h.epochOrigin l).arrived cs } where
  sound := hp.sound hs
  young := rfl
  remembered := by rw [hp.nursery]
  nursery := by rw [hp.nursery]
  capacity := hp.pass.holds.capacity
  direct := hp.direct hs
  epochs := hep
  old := .inl ⟨hsw, hp.pass.holds.start, cs.map Prod.snd, rfl,
    direct_copies hs.epochOrigin hp.pass hp.swept hp.table (List.nil_append _)⟩
  graph := ⟨_, hp.sameGraph hs⟩

/-- A collection may go on with a scavenge. -/
theorem Collected.scavenged (hc : Collected h l h' l') (hp : Scavenged h' l'.old cs m h'')
    (hep : h''.epochs = h'.epochs) (hsw : h'.swaps < h''.swaps) :
    Collected h l h'' { old := (h'.scavengeOrigin l'.old).arrived cs } := by
  have hs' := hc.sound_old
  refine ⟨hp.sound hs' hc.remembered, rfl, by rw [hp.nursery, hc.remembered],
    by rw [hp.nursery, hc.nursery], ?_, hp.direct hs', by rw [hep]; exact hc.epochs,
    .inr ⟨?_, ?_⟩, ?_⟩
  · rw [← hc.capacity, ← hs'.capacity]
    exact hp.pass.holds.capacity
  · rcases hc.old with ⟨he, -⟩ | ⟨hlt, -⟩ <;> omega
  · exact direct_copies hs'.scavengeOrigin hp.pass hp.swept hp.table (List.nil_append _)
  · obtain ⟨φ, hg⟩ := hc.graph
    exact ⟨_, hg.trans (hp.sameGraph hs')⟩

/-! ### The phases -/

/-- A report is recorded, and changes neither the store nor the counters. -/
theorem ends_report {phase : Phase} {tally : Tally} {bad : Fault → Heap → Prop} :
    Ends (report phase tally) h
      (fun _ h' ↦ SameStore h h' ∧ h'.statistics = h.statistics) bad := by
  exact ⟨⟨rfl, rfl, rfl, rfl, rfl, rfl⟩, rfl⟩

/-- To empty the nursery is to run an epoch and to tell of it. -/
theorem promoteNursery_eq : promoteNursery = (do
    let tally ← epoch
    count (·.addMinor tally.objects tally.bytes)
    report .nurseryEpoch tally) := by
  simp only [promoteNursery, epoch, bind_assoc]

/-- An epoch empties the nursery and counts as one, and with headroom it cannot fail. -/
theorem ends_promoteNursery (hs : h.Sound l) :
    Ends promoteNursery h
      (fun _ h' ↦ (∃ l', Collected h l h' l') ∧ h'.epochs = h.epochs + 1)
      (fun e _ ↦ e.IsExhausted ∧ ¬ h.Headroom) := by
  suffices hstuck : Ends promoteNursery h
      (fun _ h' ↦ (∃ l', Collected h l h' l') ∧ h'.epochs = h.epochs + 1)
      (fun e _ ↦ EpochStuck h l e) from
    hstuck.mono (fun _ _ hg ↦ hg)
      fun _ _ he ↦ ⟨EpochStuck.isExhausted he, EpochStuck.not_headroom hs he⟩
  rw [promoteNursery_eq]
  apply (ends_epoch hs).bind
  rintro tally h₁ ⟨cs, m, hp, -, -, hstat⟩
  rw [count, ends_change_bind]
  apply ends_report.imp
  rintro _ h₂ ⟨hsame, hstat'⟩
  have hsame' : SameStore h₁ h₂ := hsame.of_count
  have hep : h₂.epochs = h.epochs + 1 := by
    rw [Heap.epochs, Heap.epochs, hstat']
    simp only [Statistics.addMinor, hstat]
  have hsw : h₂.swaps = h.swaps := by
    rw [Heap.swaps, Heap.swaps, hstat']
    simp only [Statistics.addMinor, hstat]
  exact ⟨⟨_, (hp.of_sameStore hsame').collected hs (by omega) hsw⟩, hep⟩

/-- With headroom, the promotion of the nursery runs to its end. -/
theorem Sound.exists_promoted (hs : h.Sound l) (hr : h.Headroom) :
    ∃ h' l', promoteNursery h = .ok () h' ∧ Collected h l h' l' := by
  obtain ⟨_, h', he, ⟨l', hc⟩, -⟩ := ((ends_promoteNursery hs).mono (fun _ _ hg ↦ hg)
    fun _ _ ⟨_, hn⟩ ↦ hn hr).exists_eq_ok
  exact ⟨h', l', he, hc⟩

-- A scavenge that is counted takes a collected heap to one with just the live objects.
private theorem Collected.counted {h₁ : Heap} {concurrent : Bool} {tally : Tally}
    {phase : Phase} {bad : Fault → Heap → Prop} (hc : Collected h l h' l')
    (hp : Scavenged h' l'.old cs m h₁) (hst : h₁.statistics = h'.statistics) :
    Ends (do count (·.addScavenge concurrent tally.objects tally.bytes); report phase tally) h₁
      (fun _ h'' ↦ (∃ l'', Collected h l h'' l'') ∧ h''.epochs = h'.epochs ∧
        h''.semispace.active.cursor = h.liveWords) bad := by
  rw [count, ends_change_bind]
  apply ends_report.imp
  rintro _ h₂ ⟨hsame, hstat⟩
  have hsame' : SameStore h₁ h₂ := hsame.of_count
  have hep : h₂.epochs = h'.epochs := by
    rw [Heap.epochs, Heap.epochs, hstat]
    simp only [Statistics.addScavenge, hst]
  have hsw : h'.swaps < h₂.swaps := by
    rw [Heap.swaps, Heap.swaps, hstat]
    simp only [Statistics.addScavenge, hst]
    cases concurrent <;> simp only [Bool.false_eq_true, if_true, if_false] <;> omega
  obtain ⟨φ, hg⟩ := hc.graph
  exact ⟨⟨_, hc.scavenged (hp.of_sameStore hsame') hep hsw⟩, hep,
    by rw [hsame'.semispace, hp.cursor_eq hc.sound_old, hg.liveWords_eq]⟩

/-- A scavenge for room takes a collected heap to one with just the live objects. -/
theorem ends_scavengeForRoom {bad : Fault → Heap → Prop} (hc : Collected h l h' l') :
    Ends scavengeForRoom h'
      (fun _ h'' ↦ (∃ l'', Collected h l h'' l'') ∧ h''.epochs = h'.epochs ∧
        h''.semispace.active.cursor = h.liveWords) bad := by
  rw [scavengeForRoom]
  exact (ends_scavenge hc.sound_old).bind fun tally h₁ ⟨_, _, hp, hst, _⟩ ↦ hc.counted hp hst

/-- A scavenge on threshold does nothing or takes a collected heap to a collected one. -/
theorem ends_scavengeOnThreshold {bad : Fault → Heap → Prop} (hc : Collected h l h' l') :
    Ends scavengeOnThreshold h'
      (fun _ h'' ↦ (∃ l'', Collected h l h'' l'') ∧ h''.epochs = h'.epochs) bad := by
  rw [scavengeOnThreshold]
  refine Ends.bind (q := fun r h₁ ↦
    r = none ∧ SameStore h' h₁ ∧ h₁.statistics = h'.statistics ∨
    r.isSome ∧ (∃ cs m, Scavenged h' l'.old cs m h₁) ∧ h₁.statistics = h'.statistics) ?_ ?_
  · rw [scavengeIfFull, ends_ask_bind, ends_ask_bind]
    split
    · rw [ends_tell_bind]
      exact ends_pure_iff.mpr (.inl ⟨rfl, ⟨rfl, rfl, rfl, rfl, rfl, rfl⟩, rfl⟩)
    · apply (ends_scavenge hc.sound_old).bind
      rintro tally h₁ ⟨cs, m, hp, hst, -⟩
      exact ends_pure_iff.mpr (.inr ⟨rfl, ⟨cs, m, hp⟩, hst⟩)
  · rintro r h₁ (⟨rfl, hsame, hst⟩ | ⟨hr, ⟨cs, m, hp⟩, hst⟩)
    · have hep : h₁.epochs = h'.epochs := by rw [Heap.epochs, Heap.epochs, hst]
      have hsw : h₁.swaps = h'.swaps := by rw [Heap.swaps, Heap.swaps, hst]
      exact ends_pure_iff.mpr ⟨⟨l', hc.of_sameStore hsame hep hsw⟩, hep⟩
    · obtain ⟨tally, rfl⟩ := Option.isSome_iff_exists.mp hr
      apply (hc.counted hp hst).imp
      rintro _ _ ⟨hc', hep, -⟩
      exact ⟨hc', hep⟩

/-- The check for headroom fails just if there is none, and then it says how much there is. -/
theorem requireHeadroom_eq_error_iff : requireHeadroom h = .error e h' ↔ ¬ h.Headroom ∧ h' = h ∧
    e = .fatal (.exhausted h.nursery.region.capacityBytes h.semispace.active.freeBytes) := by
  simp only [requireHeadroom, bind, EStateM.bind, ask]
  split
  · next hroom =>
    have hn : ¬ h.Headroom := fun hr ↦ by simp [hasRoom_iff.mpr hr] at hroom
    constructor
    · rintro ⟨⟩
      exact ⟨hn, rfl, rfl⟩
    · rintro ⟨-, rfl, rfl⟩
      rfl
  · next hroom =>
    have hr : h.Headroom := hasRoom_iff.mp (by simpa using hroom)
    exact ⟨fun he ↦ (by cases he), fun he ↦ absurd hr he.1⟩

/-- Nothing happens if a whole nursery fits the active half. -/
theorem ends_requireHeadroom :
    Ends requireHeadroom h (fun _ h' ↦ h' = h ∧ h.Headroom)
      (fun e h' ↦ h' = h ∧ e.IsExhausted ∧ requireHeadroom h = .error e h) := by
  cases he : requireHeadroom h with
  | ok _ h' =>
    simp only [Ends, he]
    simp only [requireHeadroom, bind, EStateM.bind, ask] at he
    split at he
    · cases he
    · next hroom =>
      cases he
      exact ⟨rfl, hasRoom_iff.mp (by simpa using hroom)⟩
  | error e h' =>
    simp only [Ends, he]
    obtain ⟨-, rfl, rfl⟩ := requireHeadroom_eq_error_iff.mp he
    exact ⟨rfl, trivial, rfl⟩

-- The end of a cycle that has left just the live objects.
private theorem Collected.ends_requireHeadroom (hc : Collected h l h' l')
    (hcur : h'.semispace.active.cursor = h.liveWords) :
    Ends requireHeadroom h' (fun _ h'' ↦ h'' = h' ∧ h'.Headroom)
      (fun e h'' ↦ e.IsExhausted ∧ (h.Headroom → h.Spent l e h'')) := by
  refine Heap.ends_requireHeadroom.mono (fun _ _ hr ↦ hr) ?_
  rintro e _ ⟨rfl, he, hf⟩
  exact ⟨he, fun _ ↦ ⟨⟨_, hc⟩, hcur, hf⟩⟩

/-- A collection cycle keeps the graph that the roots reach and ends with headroom, unless the heap
is exhausted. -/
theorem ends_collect (hs : h.Sound l) :
    Ends collect h
      (fun _ h' ↦ (∃ l', Collected h l h' l') ∧ h'.epochs = h.epochs + 1 ∧ h'.Headroom)
      (fun e h' ↦ e.IsExhausted ∧ (h.Headroom → h.Spent l e h')) := by
  rw [collect]
  refine ((ends_promoteNursery hs).mono (fun _ _ hp ↦ hp)
    fun _ _ ⟨he, hn⟩ ↦ ⟨he, fun hr ↦ absurd hr hn⟩).bind fun _ h₁ ⟨⟨l₁, hc₁⟩, he₁⟩ ↦
    (ends_scavengeOnThreshold hc₁).bind fun _ h₂ ⟨⟨l₂, hc₂⟩, he₂⟩ ↦ ?_
  have hcount : ∀ {h₃ l₃}, Collected h l h₃ l₃ → h₃.epochs = h.epochs + 1 → h₃.Headroom →
      Ends (do count (·.heapSize (← ask (·.semispace.active.usedBytes)))) h₃
        (fun _ h' ↦ (∃ l', Collected h l h' l') ∧ h'.epochs = h.epochs + 1 ∧ h'.Headroom)
        (fun e h' ↦ e.IsExhausted ∧ (h.Headroom → h.Spent l e h')) :=
    fun hc₃ he₃ hr₃ ↦ ⟨⟨_, hc₃.of_sameStore ⟨rfl, rfl, rfl, rfl, rfl, rfl⟩ rfl rfl⟩, he₃, hr₃⟩
  rw [ends_ask_bind]
  split
  · refine (ends_scavengeForRoom hc₂).bind fun _ h₃ ⟨⟨l₃, hc₃⟩, he₃, hcur⟩ ↦
      (hc₃.ends_requireHeadroom hcur).bind fun _ h₄ ⟨he, hr⟩ ↦ ?_
    subst he
    exact hcount hc₃ (by omega) hr
  · next hroom => exact hcount hc₂ (by omega) (hasRoom_iff.mp (by simpa using hroom))

/-- A major collection gives a collected heap with headroom, or finds the heap exhausted. -/
theorem ends_majorCollection (hs : h.Sound l) :
    Ends majorCollection h
      (fun _ h' ↦ (∃ l', Collected h l h' l') ∧ h'.epochs = h.epochs + 1 ∧ h'.Headroom)
      (fun e h' ↦ e.IsExhausted ∧ (h.Headroom → h.Spent l e h')) := by
  rw [majorCollection]
  refine ((ends_promoteNursery hs).mono (fun _ _ hp ↦ hp)
    fun _ _ ⟨he, hn⟩ ↦ ⟨he, fun hr ↦ absurd hr hn⟩).bind fun _ h₁ ⟨⟨l₁, hc₁⟩, he₁⟩ ↦
    (ends_scavengeForRoom hc₁).bind fun _ h₂ ⟨⟨l₂, hc₂⟩, he₂, hcur⟩ ↦
      (hc₂.ends_requireHeadroom hcur).imp fun _ h₃ ⟨he, hr⟩ ↦ ?_
  subst he
  exact ⟨⟨l₂, hc₂⟩, by omega, hr⟩

end Heap

end Tenure
