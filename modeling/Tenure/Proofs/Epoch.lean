import Tenure.Heap.Epoch
import Tenure.Proofs.Pass.Transfer

/-!
# Nursery epochs

All passes of an epoch share one origin, the heap before the epoch. The beginning makes every old
object quiet, and since the remembered set names all that are not, the end leaves nothing that leads
into the nursery. Main statement: `ends_epoch`, an epoch ends as described by `Completed`, or the
active half has no room for a copy that is due.
-/

namespace Tenure

namespace Heap

/-- The origin of the passes of a nursery epoch. -/
def epochOrigin (h : Heap) (l : Census) : Origin where
  pass := {
    table := h.table
    source := h.nursery.region
    padding := h.settings.padding
    compact := h.settings.compactTails }
  memory := h.memory
  target := h.semispace.active
  inside := l.young
  outside := l.old
  starts := h.roots.toList ++ h.nursery.remembered

/-- The epoch of a collection. -/
def epoch : HeapM Tally := do
  beginEpoch
  promoteRoots
  endEpoch

/-- A heap in the middle of an epoch that began with `h₀`. What was copied was counted, up to what
is `pending`. -/
structure Underway (h₀ : Heap) (l : Census) (pending : Tally) (cs : Copies)
    (roots : RootStack Nat) (h : Heap) : Prop where
  holds : (h₀.epochOrigin l).Holds cs h.memory h.semispace.active
  table : h.table = h₀.table
  settings : h.settings = h₀.settings
  statistics : h.statistics = h₀.statistics
  nursery : h.nursery.region = h₀.nursery.region
  reserve : h.semispace.reserve = h₀.semispace.reserve
  roots : h.roots = roots
  epoch : ∃ promoted, h.nursery.epoch = some ⟨h₀.semispace.active.cursor, promoted⟩ ∧
    promoted.objects + pending.objects = cs.length ∧
    promoted.words + pending.words + h₀.semispace.active.cursor = h.semispace.active.cursor

/-- What an epoch makes of a heap: `m` is the memory before the nursery is cleared. -/
structure Promoted (h : Heap) (l : Census) (cs : Copies) (m : Memory) (h' : Heap) : Prop where
  pass : (h.epochOrigin l).Over cs m h'.semispace.active
  memory : h'.memory = m.clear h.nursery.region.start h.nursery.region.cursor
  table : h'.table = h.table
  settings : h'.settings = h.settings
  nursery : h'.nursery = { region := h.nursery.region.reset }
  reserve : h'.semispace.reserve = h.semispace.reserve
  roots : h'.roots.toList = h.roots.toList.map fun a ↦ cs.current (h.memory.resolve a)
  clean : ∀ a ∈ h.roots.toList,
    h.nursery.region.contains (cs.current (h.memory.resolve a)) = false

/-- An epoch of `h` has given `tally` and left `h'`. -/
def Completed (h : Heap) (l : Census) (tally : Tally) (h' : Heap) : Prop :=
  ∃ cs m, Promoted h l cs m h' ∧ tally.objects = cs.length ∧
    tally.words + h.semispace.active.cursor = h'.semispace.active.cursor ∧
    h'.statistics = h.statistics

variable {h h₀ h' : Heap} {l : Census} {cs cs' : Copies} {m : Memory} {roots : RootStack Nat}
  {a : Nat} {u : Span} {st : CopyState}

/-- A sound heap is an origin for the passes of an epoch. -/
theorem Sound.epochOrigin (hs : h.Sound l) : (h.epochOrigin l).Sound where
  wellFormed := hs.wellFormed
  inside := fun _ hm ↦ ⟨(hs.young.mem hm).1, (hs.young.mem hm).2.1⟩
  outside := by
    intro s hm i hi
    have hin := hs.contains_old hm hi
    obtain ⟨-, hstop, -⟩ := hs.old.mem hm
    rw [Span.stop] at hstop
    exact ⟨Region.Apart.symm hs.nursery_apart_active _ hin, fun _ ↦ by
      show s.start + i < h.semispace.active.start + h.semispace.active.cursor
      omega⟩
  apart := hs.nursery_apart_active
  mapped := hs.mapped _ (by simp [regions, Heap.epochOrigin])
  vacant := hs.vacant _ (by simp [regions, Heap.epochOrigin])
  links := by
    intro s f hf ht
    obtain ⟨b, -, -, href⟩ := hs.wellFormed.toRef?_link hf ht
    show (∀ a, Word.toRef? (h.memory.read (f.cell h.memory s.start .link)) = some a →
      h.nursery.region.contains a = false) ↔ h.nursery.region.contains s.start = false
    simp only [href, Option.some.injEq, forall_eq', hs.links s f hf ht b.start href]
  starts := by
    intro a ha
    rcases List.mem_append.mp ha with ha | ha
    · exact .inl (hs.roots a ha)
    · exact .inr (hs.remembers.old a ha)

/-- At the origin, all old objects are quiet but those in the remembered set. -/
theorem Remembers.quiet (hr : h.Remembers l) (hu : u ∈ l.old)
    (hn : u.start ∉ h.nursery.remembered) : (h.epochOrigin l).Quiet h.memory u := by
  have hold : ∀ {a}, (h.nursery.region.contains a = true → u.start ∈ h.nursery.remembered) →
      h.nursery.region.contains a = false :=
    fun hmem ↦ Bool.eq_false_iff.mpr fun hc ↦ hn (hmem hc)
  exact {
    object := fun f hf part hp a ha ↦ hold (hr.slots u f hu hf part hp a ha)
    husk := fun _ a ha ↦ hold (hr.husks u hu a ha) }

end Heap

namespace Origin

variable {o : Origin} {cs : Copies} {u : Span} {st : CopyState}

/-- An old object is quiet once what it refers to was promoted. -/
theorem ends_promoteRemembered (ho : o.Sound) (h : o.Holds cs st.memory st.target)
    (hu : u ∈ o.outside) (ha : u.start ∈ o.starts) :
    Ends (Heap.promoteRemembered o.pass u.start) st
      (fun _ ↦ o.Reached cs st fun _ s ↦ o.Quiet s.memory u) o.Stuck := by
  have hmo : u ∈ o.objects := mem_objects.mpr (.inr hu)
  unfold Ends
  -- A direct object is scanned; of an indirection the target is evacuated and it is shortened.
  rcases ho.wellFormed.header u hmo with ⟨f, hf⟩ | ⟨b, hr, d, hob, hl, x, k, hx, rfl, -⟩
  · have hst : o.Stands cs u u f f := .stays hu ⟨hmo, hf⟩
    simp only [Heap.promoteRemembered, Memory.hop?_of_form? (h.form? hst)]
    have hdue : o.Due u.start := .start ha (.here (Memory.hop?_of_form? hf))
    refine (ends_scanObject ho h hst fun _ ↦ hst.dueSlot hdue).imp
      fun _ _ ⟨cs', h', hlat, hset, _⟩ ↦ ⟨cs', h', hlat, ?_, ?_⟩
    · intro g hg
      obtain rfl := Object.unique ⟨hmo, hf⟩ hg
      exact hset
    · intro hh
      exact absurd (Memory.hop?_of_form? hf) hh
  · have hh := Memory.hop?_of_read hr (ho.wellFormed.lt_limit hob)
    have hne : o.memory.hop? u.start ≠ none := by rw [hh]; simp
    have hlu : o.memory.Leads u.start x.start := .hop hh hl
    have hlead := h.leads ho hx (.of_mem hmo) hlu
    obtain ⟨target, ht⟩ := Option.ne_none_iff_exists'.mp (h.hop?_husk ho hu hne)
    simp only [Heap.promoteRemembered, ht]
    apply (ends_evacuate ho h hx (.start ha hlu) (hlead.of_hop ht)).bind
    rintro r st' ⟨cs', h', hlat, hr, hn, -⟩
    subst hr
    have hnew := h'.shorten ho hu hne hx hlu hn
    obtain ⟨t, g, hst, hcur⟩ := h'.plan.stands ho hx hn
    have hmu := h'.mapped_iff.mpr (ho.wellFormed.mapped_start hmo)
    have haim : o.Aimed (st'.memory.redirect u.start (cs'.current x.start)) u.start := by
      have hrd : (st'.memory.redirect u.start (cs'.current x.start)).read u.start =
          (Header.forward (Word.ofAddr (cs'.current x.start))).word :=
        Memory.read_write_self _ hmu
      rw [← hcur] at hrd hn ⊢
      intro y hy
      rw [Memory.hop?_of_read hrd (h'.stands_lt_limit ho hst)] at hy
      cases hy
      exact hn
    refine ⟨cs', hnew, hlat.trans ⟨⟨List.prefix_refl _, fun q p hc ↦ .inl ?_, fun v hv _ ↦ ?_⟩,
      rfl, rfl⟩, fun f hf ↦ ?_, fun _ ↦ haim⟩
    · exact Memory.read_write_of_ne _ (hc.ne_outside ho h' hu hne).symm
    · by_cases he : u.start = v.start
      · exact .inr (he ▸ haim)
      · exact .inl (Memory.read_write_of_ne _ he)
    · rw [hf.hop?] at hh
      cases hh

end Origin

namespace Heap

variable {h h₀ h' : Heap} {l : Census} {cs cs' : Copies} {m : Memory} {roots : RootStack Nat}
  {a : Nat} {u : Span} {f : Form} {α : Type}

/-- A pass of this epoch has failed. -/
def EpochStuck (h₀ : Heap) (l : Census) (e : Fault) : Prop := ∃ st, (h₀.epochOrigin l).Stuck e st

/-- A pass takes a heap in the middle of an epoch to a later one. -/
theorem ends_promoting {pass : Evacuation → CopyM α} (good : α → Copies → Memory → Prop)
    (hu : Underway h₀ l {} cs roots h)
    (hp : Ends (pass (h₀.epochOrigin l).pass) { memory := h.memory, target := h.semispace.active }
      (fun a ↦ (h₀.epochOrigin l).Reached cs
        { memory := h.memory, target := h.semispace.active } fun cs' s ↦ good a cs' s.memory)
      (h₀.epochOrigin l).Stuck) :
    Ends (promoting pass) h
      (fun r h' ↦ ∃ cs', Underway h₀ l r.2 cs' roots h' ∧
        (h₀.epochOrigin l).Later cs h.memory cs' h'.memory ∧
        h'.nursery.epoch = h.nursery.epoch ∧ good r.1 cs' h'.memory)
      (fun e _ ↦ EpochStuck h₀ l e) := by
  have he : (⟨h.table, h.nursery.region, h.settings.padding, h.settings.compactTails⟩ :
      Evacuation) =
      (h₀.epochOrigin l).pass := by
    rw [hu.table, hu.nursery, hu.settings]
    rfl
  unfold Ends at hp ⊢
  simp only [promoting, runPass, he]
  split at hp
  · next r st hr =>
    rw [hr]
    obtain ⟨cs', hh, hl, hg⟩ := hp
    obtain ⟨promoted, hep, hobj, hwords⟩ := hu.epoch
    refine ⟨cs', ⟨hh, hu.table, hu.settings, hu.statistics, hu.nursery, hu.reserve, hu.roots,
      promoted, hep, ?_, ?_⟩, hl.toLater, rfl, hg⟩
    · have := hl.objects
      simp only at this hobj ⊢
      omega
    · have := hl.words
      simp only at this hwords ⊢
      omega
  · next e st hr =>
    rw [hr]
    exact ⟨st, hp⟩

/-- Counting what was promoted changes nothing else. -/
theorem Underway.addPromoted {tally : Tally} (hu : Underway h₀ l tally cs roots h) :
    Ends (addPromoted tally) h (fun _ h' ↦ Underway h₀ l {} cs roots h' ∧ h'.memory = h.memory)
      (fun e _ ↦ EpochStuck h₀ l e) := by
  obtain ⟨promoted, he, hobj, hwords⟩ := hu.epoch
  refine ⟨⟨hu.holds, hu.table, hu.settings, hu.statistics, hu.nursery, hu.reserve, hu.roots,
    promoted + tally, ?_, hobj, hwords⟩, rfl⟩
  simp only [he, Option.map_some]

/-- The beginning of an epoch makes every old object quiet, in whatever order it goes through the
remembered set. -/
theorem ends_beginEpochWith {remembered : List Nat} (hs : h.Sound l)
    (hsub : ∀ a ∈ remembered, a ∈ h.nursery.remembered)
    (hquiet : ∀ u ∈ l.old, u.start ∉ remembered → (h.epochOrigin l).Quiet h.memory u) :
    Ends (beginEpochWith remembered) h
      (fun _ h' ↦ ∃ cs, Underway h l {} cs h.roots h' ∧
        ∀ u ∈ l.old, (h.epochOrigin l).Quiet h'.memory u)
      (fun e _ ↦ EpochStuck h l e) := by
  have ho := hs.epochOrigin
  have hepoch : h.nursery.epoch.isSome = false := by rw [hs.epoch]; rfl
  rw [beginEpochWith, ends_ask_bind, hepoch]
  simp only [Bool.false_eq_true, if_false, ends_change_bind, ends_ask_bind,
    ends_tell_bind]
  have hu : Underway h l {} [] h.roots
      { h with
        nursery := { h.nursery with
          remembered := []
          epoch := some { start := h.semispace.active.cursor } }
        events := h.events.push (.epochBegun h.nursery.region.cursor remembered.length) } :=
    ⟨ho.holds, rfl, rfl, rfl, rfl, rfl, rfl, {}, rfl, rfl, Nat.zero_add _⟩
  refine (ends_promoting (fun _ _ m ↦ ∀ u ∈ l.old, (h.epochOrigin l).Quiet m u) hu ?_).bind
    fun ⟨_, tally⟩ h' ⟨cs, hu', _, _, hq⟩ ↦ hu'.addPromoted.imp
      fun _ h'' ⟨hu'', hm⟩ ↦ ⟨cs, hu'', hm ▸ hq⟩
  -- The loop makes one remembered object quiet at a time; the others are so from the start.
  refine (Ends.forM (fun done ↦ (h.epochOrigin l).Reached []
    { memory := h.memory, target := h.semispace.active } fun _ s ↦
      ∀ u ∈ l.old, (u.start ∈ remembered → u.start ∈ done) →
        (h.epochOrigin l).Quiet s.memory u) ?_ ?_).imp ?_
  · refine ⟨[], ho.holds, .refl _ _ _, fun u hu hd ↦ hquiet u hu fun hr ↦ ?_⟩
    cases hd hr
  · rintro done a rest st hx ⟨cs, hh, hl, hq⟩
    have ha : a ∈ h.nursery.remembered := hsub a (by rw [hx]; simp)
    obtain ⟨u, hu, rfl⟩ := hs.remembers.old a ha
    refine (Origin.ends_promoteRemembered ho hh hu (List.mem_append_right _ ha)).imp fun _ st' hr ↦
      hr.later hl fun cs' h' hl' hqu v hv hd ↦ ?_
    by_cases he : v.start = u.start
    · obtain rfl := hs.wellFormed.eq_of_start (List.mem_append_right _ hv)
        (List.mem_append_right _ hu) he
      exact hqu
    · refine hl'.quiet ho hh h' hv (hq v hv fun hr ↦ ?_)
      rcases List.mem_append.mp (hd hr) with hd | hd
      · exact hd
      · exact absurd (List.mem_singleton.mp hd) he
  · intro _ st hr
    exact hr.later (.refl _ _ _) fun cs _ _ hq u hu ↦ hq u hu id

/-- The start of an epoch promotes what the remembered set refers to, or gets stuck on the way. -/
theorem ends_beginEpoch (hs : h.Sound l) :
    Ends beginEpoch h
      (fun _ h' ↦ ∃ cs, Underway h l {} cs h.roots h' ∧
        ∀ u ∈ l.old, (h.epochOrigin l).Quiet h'.memory u)
      (fun e _ ↦ EpochStuck h l e) := by
  rw [beginEpoch, ends_ask_bind]
  exact ends_beginEpochWith hs (fun _ ha ↦ ha) fun u hu hn ↦ hs.remembers.quiet hu hn

/-- Promotion gives the place where the object that the reference leads to is from then on. -/
theorem ends_promote (hs : h₀.Sound l) (hu : Underway h₀ l {} cs roots h)
    (hf : (h₀.epochOrigin l).Object u f) (hdue : (h₀.epochOrigin l).Due u.start)
    (hl : h.memory.Leads a (cs.current u.start)) : Ends (promote a) h
      (fun r h' ↦ ∃ cs', Underway h₀ l {} cs' roots h' ∧
        (h₀.epochOrigin l).Later cs h.memory cs' h'.memory ∧
        r = cs'.current u.start ∧ h₀.nursery.region.contains r = false)
      (fun e _ ↦ EpochStuck h₀ l e) := by
  have hepoch : h.nursery.epoch.isNone = false := by
    obtain ⟨promoted, hp, -⟩ := hu.epoch
    rw [hp]
    rfl
  rw [promote, ends_ask_bind, hepoch]
  simp only [Bool.false_eq_true, if_false]
  refine (ends_promoting (fun r cs' _ ↦ r = cs'.current u.start ∧
    h₀.nursery.region.contains r = false) hu ?_).bind
      fun ⟨r, tally⟩ h' ⟨cs', hu', hlat, _, hr, hn⟩ ↦
        hu'.addPromoted.bind fun _ h'' ⟨hu'', hm⟩ ↦ ends_pure_iff.mpr ?_
  · exact (Origin.ends_evacuate hs.epochOrigin hu.holds hf hdue hl).imp
      fun _ _ ⟨cs', hh, hadv, hr, hn, _⟩ ↦ ⟨cs', hh, hadv, hr, hn⟩
  · exact ⟨cs', hu'', hm ▸ hlat, hr, hn⟩

/-- A root is due, and it leads to where its object is now. -/
theorem Underway.root (hs : h₀.Sound l) (hu : Underway h₀ l {} cs roots h)
    (ha : a ∈ h₀.roots.toList) : ∃ u f, (h₀.epochOrigin l).Object u f ∧
      h₀.memory.resolve a = u.start ∧ (h₀.epochOrigin l).Due u.start ∧
      h.memory.Leads a (cs.current u.start) := by
  obtain ⟨hob, hl, u, f, hf, he, -⟩ := (hs.roots a ha).denotes
  rw [← he] at hl
  exact ⟨u, f, hf, he.symm, .start (List.mem_append_left _ ha) hl,
    hu.holds.leads hs.epochOrigin hf hob hl⟩

/-- After all roots were promoted, each refers to where its object is now. -/
theorem ends_promoteRoots (hs : h₀.Sound l) (hu : Underway h₀ l {} cs h₀.roots h)
    (hq : ∀ u ∈ l.old, (h₀.epochOrigin l).Quiet h.memory u) :
    Ends promoteRoots h
      (fun _ h' ↦ ∃ cs' : Copies, cs <+: cs' ∧ Underway h₀ l {} cs' h'.roots h' ∧
        (∀ u ∈ l.old, (h₀.epochOrigin l).Quiet h'.memory u) ∧
        h'.roots.toList = h₀.roots.toList.map (fun a ↦ cs'.current (h₀.memory.resolve a)) ∧
        ∀ a ∈ h₀.roots.toList,
          h₀.nursery.region.contains (cs'.current (h₀.memory.resolve a)) = false)
      (fun e _ ↦ EpochStuck h₀ l e) := by
  have ho := hs.epochOrigin
  rw [promoteRoots, ends_ask_bind, hu.roots]
  refine (Origin.ends_markM (o := h₀.epochOrigin l)
    (fun _ cs' h' ↦ cs <+: cs' ∧ Underway h₀ l {} cs' h₀.roots h' ∧
      ∀ u ∈ l.old, (h₀.epochOrigin l).Quiet h'.memory u) ho
    (fun _ _ _ hi ↦ ⟨_, hi.2.1.holds.plan⟩) ⟨List.prefix_refl cs, hu, hq⟩
    fun _ cs' h' a ha ⟨hpre, hu', hq'⟩ ↦ ?_).bind
      fun r h' ⟨cs', ⟨hpre, hu', hq'⟩, hr, hn⟩ ↦ ?_
  · obtain ⟨u, f, hf, he, hdue, hl⟩ := hu'.root hs ha
    have he : (h₀.epochOrigin l).memory.resolve a = u.start := he
    rw [he]
    apply (ends_promote hs hu' hf hdue hl).imp
    rintro r h'' ⟨cs'', hu'', hlat, hr, hnr⟩
    exact ⟨cs'', ⟨hpre.trans hlat.copies, hu'',
      fun u hu₁ ↦ hlat.quiet ho hu'.holds hu''.holds hu₁ (hq' u hu₁)⟩, hlat.copies, hr, hnr⟩
  · exact ⟨cs', hpre, ⟨hu'.holds, hu'.table, hu'.settings, hu'.statistics, hu'.nursery, hu'.reserve,
      rfl, hu'.epoch⟩, hq', hr, hn⟩

/-- The end of an epoch promotes what the promoted objects refer to and empties the nursery. It
gives the number of the objects promoted in the epoch, and their words. -/
theorem ends_endEpoch (hs : h₀.Sound l) (hu : Underway h₀ l {} cs roots h)
    (hq : ∀ u ∈ l.old, (h₀.epochOrigin l).Quiet h.memory u) :
    Ends endEpoch h
      (fun tally h' ↦ ∃ cs' m, (h₀.epochOrigin l).Over cs' m h'.semispace.active ∧
        (tally.objects = cs'.length ∧
          tally.words + h₀.semispace.active.cursor = h'.semispace.active.cursor) ∧
        (h₀.epochOrigin l).Later cs h.memory cs' m ∧
        h'.memory = m.clear h₀.nursery.region.start h₀.nursery.region.cursor ∧
        h'.table = h₀.table ∧ h'.settings = h₀.settings ∧ h'.statistics = h₀.statistics ∧
        h'.nursery = { region := h₀.nursery.region.reset } ∧
        h'.semispace.reserve = h₀.semispace.reserve ∧ h'.roots = roots)
      (fun e _ ↦ EpochStuck h₀ l e) := by
  have ho := hs.epochOrigin
  obtain ⟨promoted, hepoch, -⟩ := hu.epoch
  rw [endEpoch, ends_ask_bind, hepoch]
  apply (ends_promoting (fun _ cs' m ↦ (h₀.epochOrigin l).AllSettled m cs') hu
    ((Origin.ends_scanFrom ho hu.holds).imp
      fun _ _ ⟨cs', hh, hadv, hset, _⟩ ↦ ⟨cs', hh, hadv, hset⟩)).bind
  rintro ⟨_, tally⟩ h' ⟨cs', hu', hlat, he, hset⟩
  obtain ⟨promoted', hepoch', hcount⟩ := hu'.epoch
  obtain rfl : promoted' = promoted := by
    rw [he, hepoch] at hepoch'
    cases hepoch'
    rfl
  refine ⟨cs', h'.memory, ⟨hu'.holds, hset, fun u hu₁ ↦ ?_⟩, hcount, hlat, ?_,
    hu'.table, hu'.settings, hu'.statistics, ?_, hu'.reserve, hu'.roots⟩
  · exact hlat.quiet ho hu.holds hu'.holds hu₁ (hq u hu₁)
  · simp only [hu'.nursery]
  · simp only [hu'.nursery]

/-- The end of an epoch makes more copies when all roots are where they should be. -/
theorem ends_endEpoch_promoted (hs : h.Sound l) (hu : Underway h l {} cs roots h₀)
    (hq : ∀ u ∈ l.old, (h.epochOrigin l).Quiet h₀.memory u)
    (hr : roots.toList = h.roots.toList.map fun a ↦ cs.current (h.memory.resolve a))
    (hn : ∀ a ∈ h.roots.toList,
      h.nursery.region.contains (cs.current (h.memory.resolve a)) = false) :
    Ends endEpoch h₀
      (fun tally h' ↦ ∃ cs' m, cs <+: cs' ∧ Promoted h l cs' m h' ∧ tally.objects = cs'.length ∧
        tally.words + h.semispace.active.cursor = h'.semispace.active.cursor ∧
        h'.statistics = h.statistics)
      (fun e _ ↦ EpochStuck h l e) := by
  apply (ends_endEpoch hs hu hq).imp
  rintro tally h' ⟨cs', m, hov, ⟨hobj, hwords⟩, hlat, hm, ht, hst, hstat, hnu, hres, hro⟩
  obtain ⟨ds, rfl⟩ := hlat.copies
  have hcur : ∀ a ∈ h.roots.toList, Copies.current (cs ++ ds) (h.memory.resolve a) =
      cs.current (h.memory.resolve a) :=
    fun a ha ↦ hov.holds.plan.current_append hs.epochOrigin (hn a ha)
  refine ⟨cs ++ ds, m, hlat.copies, ⟨hov, hm, ht, hst, hnu, hres, ?_, fun a ha ↦ ?_⟩, hobj, hwords,
    hstat⟩
  · rw [hro, hr]
    exact (List.map_congr_left hcur).symm
  · rw [hcur a ha]
    exact hn a ha

/-- An epoch is completed by its end when all roots are where they should be. -/
theorem ends_endEpoch_of_roots (hs : h.Sound l) (hu : Underway h l {} cs roots h₀)
    (hq : ∀ u ∈ l.old, (h.epochOrigin l).Quiet h₀.memory u)
    (hr : roots.toList = h.roots.toList.map fun a ↦ cs.current (h.memory.resolve a))
    (hn : ∀ a ∈ h.roots.toList,
      h.nursery.region.contains (cs.current (h.memory.resolve a)) = false) :
    Ends endEpoch h₀ (Completed h l) (fun e _ ↦ EpochStuck h l e) :=
  (ends_endEpoch_promoted hs hu hq hr hn).imp fun _ _ ⟨cs', m, _, hp⟩ ↦ ⟨cs', m, hp⟩

/-- The epoch of a collection is completed. -/
theorem ends_epoch (hs : h.Sound l) :
    Ends epoch h (Completed h l) (fun e _ ↦ EpochStuck h l e) := by
  rw [epoch]
  exact (ends_beginEpoch hs).bind fun _ h₁ ⟨_, hu₁, hq₁⟩ ↦
    (ends_promoteRoots hs hu₁ hq₁).bind fun _ h₂ ⟨_, _, hu₂, hq₂, hr, hn⟩ ↦
      ends_endEpoch_of_roots hs hu₂ hq₂ hr hn

/-! ### The heap after an epoch -/

section Promoted

variable (hs : h.Sound l) (hp : Promoted h l cs m h')
include hs hp

omit hs in
/-- Outside the nursery, a promotion leaves the memory as its last pass did. -/
theorem Promoted.swept : (h.epochOrigin l).Swept m h'.memory := by
  rw [hp.memory]
  exact (h.epochOrigin l).swept_clear m

/-- A promotion leads from the heap at the origin of its passes to the heap after them. -/
theorem Promoted.transfer : (h.epochOrigin l).Transfer cs h'.memory h h' :=
  ⟨rfl, rfl, rfl, hp.table, hp.settings, rfl, hp.roots, hs.roots, hp.clean⟩

/-- The graph that the roots reach is as it was. -/
theorem Promoted.sameGraph : SameGraph cs.current h h' :=
  hp.pass.sameGraph hs.epochOrigin hp.swept (hp.transfer hs)

/-- The roots do not refer to indirections. -/
theorem Promoted.direct : ∀ a ∈ h'.roots.toList, h'.memory.hop? a = none := by
  intro a ha
  obtain ⟨t, g, hg, -, rfl⟩ := hp.pass.direct_root hs.epochOrigin hp.swept (hp.transfer hs) ha
  exact hg.hop?

private theorem Promoted.spaced : h'.Spaced := by
  have hsep := hp.pass.separate hs.epochOrigin hs.old (hs.separate (.refl _))
  have hregions : h'.regions =
      [h.nursery.region.reset, h'.semispace.active, h.semispace.reserve] := by
    rw [regions, hp.nursery, hp.reserve]
  have hcap : h'.semispace.active.capacity = h.semispace.active.capacity := hp.pass.holds.capacity
  constructor
  · rw [hregions]
    exact hsep.apart
  · rw [hregions, hp.memory]
    exact hsep.mapped
  · rw [hregions, hp.memory]
    exact hsep.vacant
  · rw [hp.reserve, hs.reserve]
  · rw [hp.reserve, hcap, hs.capacity]

/-- The heap is sound after an epoch, with an empty nursery. -/
theorem Promoted.sound : h'.Sound { old := (h.epochOrigin l).arrived cs } := by
  refine (hp.spaced hs).sound (by rw [hp.nursery]; rfl) (by rw [hp.nursery]) (by rw [hp.nursery])
    (Origin.Filled.tiles_arrived hs.old hp.pass.holds) ?_ fun a ha ↦
      hp.pass.valid_root hs.epochOrigin hp.swept (hp.transfer hs) ha
  rw [hp.table, hp.settings]
  exact hp.pass.wellFormed hs.epochOrigin hp.swept

end Promoted

end Heap

end Tenure
