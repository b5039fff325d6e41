import Tenure.Proofs.Pass.Frame
import Tenure.Proofs.Selection

/-!
# What an epoch changes among the old objects

An epoch appends to the active half, and it changes words there that were in use already. These are
slots of remembered objects and the headers of remembered indirections; all else stays as it is,
and so do the places of all old objects. A word that is changed led to an object that was promoted,
or led to its object by way of an indirection. Main statement: `Reaches.epoch_patches`.
-/

namespace Tenure

namespace Origin

variable {o : Origin} {cs : Copies} {st : CopyState} {u : Span} {f : Form} {p : Nat}
  {W : Nat → Prop}

/-- A word that an epoch may change for the sake of a remembered object `u`. -/
def PatchOf (o : Origin) (u : Span) (p : Nat) : Prop :=
  o.SlotOf u p ∨ o.memory.hop? u.start ≠ none ∧ p = u.start

/-- Promoting what a remembered object refers to changes no other old objects. -/
theorem ends_promoteRemembered_frame (ho : o.Sound) (h : o.Holds cs st.memory st.target)
    (hu : u ∈ o.outside) (ha : u.start ∈ o.starts) :
    Ends (Heap.promoteRemembered o.pass u.start) st (fun _ ↦ o.Frame (o.PatchOf u) st)
      (fun _ _ ↦ True) := by
  have hmo : u ∈ o.objects := mem_objects.mpr (.inr hu)
  unfold Ends
  rcases ho.wellFormed.header u hmo with ⟨f, hf⟩ | ⟨b, hr, hv⟩
  · have hst : o.Stands cs u u f f := .stays hu ⟨hmo, hf⟩
    simp only [Heap.promoteRemembered, Memory.hop?_of_form? (h.form? hst)]
    have hdue : o.Due u.start := .start ha (.here (Memory.hop?_of_form? hf))
    exact (ends_scanObject_frame ho h hst fun _ ↦ hst.dueSlot hdue).imp
      fun _ _ hfr ↦ hfr.mono fun _ _ hp ↦ .inl hp
  · have hne : o.memory.hop? u.start ≠ none := by
      rw [Memory.hop?_of_read hr (ho.wellFormed.lt_limit hv.denotes.1)]
      simp
    obtain ⟨target, ht⟩ := Option.ne_none_iff_exists'.mp (h.hop?_husk ho hu hne)
    simp only [Heap.promoteRemembered, ht]
    have hev := ends_evacuate_frame (W := o.PatchOf u) h.beyond target
    refine hev.bind fun r st' hfr ↦ ?_
    exact hfr.trans ⟨hfr.beyond, fun p _ hp ↦
      Memory.read_write_of_ne _ fun he ↦ hp (.inr ⟨hne, he.symm⟩)⟩

/-- Going through remembered objects changes no other old objects. -/
theorem ends_promoteAll_frame {remembered : List Nat} (ho : o.Sound)
    (hsub : ∀ a ∈ remembered, a ∈ o.starts ∧ IsObject o.outside a) :
    Ends (remembered.forM (Heap.promoteRemembered o.pass))
      { memory := o.memory, target := o.target }
      (fun _ ↦ o.Frame (fun p ↦ ∃ u ∈ o.outside, u.start ∈ remembered ∧ o.PatchOf u p)
        { memory := o.memory, target := o.target }) (fun _ _ ↦ True) := by
  refine (Ends.forM (fun _ st ↦ (∃ cs, o.Holds cs st.memory st.target) ∧
    o.Frame (fun p ↦ ∃ u ∈ o.outside, u.start ∈ remembered ∧ o.PatchOf u p) _ st)
    ⟨⟨[], ho.holds⟩, .refl ho.holds.beyond⟩ ?_).imp fun _ _ h ↦ h.2
  rintro done a rest st hx ⟨⟨cs, hh⟩, hf⟩
  have hmem : a ∈ remembered := by
    rw [hx]
    simp
  obtain ⟨hstart, u, hu, rfl⟩ := hsub a hmem
  refine ((ends_promoteRemembered ho hh hu hstart).and
    (ends_promoteRemembered_frame ho hh hu hstart)).mono ?_ fun _ _ _ ↦ trivial
  rintro _ st' ⟨⟨cs', h', -⟩, hf'⟩
  exact ⟨⟨cs', h'⟩, hf.trans (hf'.mono fun p _ hp ↦ ⟨u, hu, hmem, hp⟩)⟩

end Origin

namespace Heap

variable {h h₀ h' h'' : Heap} {l : Census} {o : Origin} {W : Nat → Prop} {α : Type}

/-- What a pass out of the nursery is given of a heap. -/
def copying (h : Heap) : CopyState := { memory := h.memory, target := h.semispace.active }

/-- What stays fixed during a pass out of the nursery. -/
def evacuation (h : Heap) : Evacuation where
  table := h.table
  source := h.nursery.region
  padding := h.settings.padding
  compact := h.settings.compactTails

/-- The next pass of the epoch is as the last one, and of the words that lie aside only those in `W`
may have changed. -/
structure Framed (o : Origin) (W : Nat → Prop) (h h' : Heap) : Prop
    extends o.Frame W h.copying h'.copying where
  pass : h'.evacuation = o.pass

private theorem Framed.trans (hf : Framed o W h h') (hf' : Framed o W h' h'') : Framed o W h h'' :=
  ⟨hf.toFrame.trans hf'.toFrame, hf'.pass⟩

/-- What a pass changes is what it changes in the heap. -/
theorem ends_promoting_frame {pass : Evacuation → CopyM α} (he : h.evacuation = o.pass)
    (hp : Ends (pass o.pass) h.copying (fun _ ↦ o.Frame W h.copying) (fun _ _ ↦ True)) :
    Ends (promoting pass) h (fun _ ↦ Framed o W h) (fun _ _ ↦ True) := by
  have he' : (⟨h.table, h.nursery.region, h.settings.padding, h.settings.compactTails⟩ :
      Evacuation) = o.pass := he
  unfold Ends at hp ⊢
  simp only [promoting, runPass, he']
  split at hp
  · next r st hr =>
    rw [show (⟨h.memory, h.semispace.active, {}⟩ : CopyState) = h.copying from rfl, hr]
    exact ⟨⟨hp.beyond, hp.same⟩, he⟩
  · next e st hr =>
    rw [show (⟨h.memory, h.semispace.active, {}⟩ : CopyState) = h.copying from rfl, hr]
    trivial

private theorem framed_addPromoted {tally : Tally} (hf : Framed o W h h') :
    Ends (addPromoted tally) h' (fun _ ↦ Framed o W h) (fun _ _ ↦ True) :=
  ⟨⟨hf.beyond, hf.same⟩, hf.pass⟩

/-- A word of an old object that an epoch may change, because the object is remembered. -/
def MayPatch (h : Heap) (l : Census) (p : Nat) : Prop :=
  ∃ u ∈ l.old, u.start ∈ h.nursery.remembered ∧ (h.epochOrigin l).PatchOf u p

private theorem ends_beginEpoch_frame (hs : h.Sound l) :
    Ends beginEpoch h (fun _ ↦ Framed (h.epochOrigin l) (h.MayPatch l) h) (fun _ _ ↦ True) := by
  have ho := hs.epochOrigin
  have hepoch : h.nursery.epoch.isSome = false := by rw [hs.epoch]; rfl
  rw [beginEpoch, ends_ask_bind, beginEpochWith, ends_ask_bind, hepoch]
  simp only [Bool.false_eq_true, if_false, ends_change_bind, ends_ask_bind, ends_tell_bind]
  apply (ends_promoting_frame rfl (Origin.ends_promoteAll_frame ho fun a ha ↦
    ⟨List.mem_append_right _ ha, hs.remembers.old a ha⟩)).bind
  rintro ⟨_, tally⟩ h' hf
  exact framed_addPromoted ⟨⟨hf.beyond, hf.same⟩, hf.pass⟩

private theorem ends_promote_frame (a : Nat) (hb : o.Beyond h.semispace.active)
    (he : h.evacuation = o.pass) :
    Ends (promote a) h (fun _ ↦ Framed o W h) (fun _ _ ↦ True) := by
  rw [promote, ends_ask_bind]
  split
  · trivial
  · apply (ends_promoting_frame he (Origin.ends_evacuate_frame hb a)).bind
    rintro ⟨r, tally⟩ h' hf
    exact (framed_addPromoted hf).bind fun _ h'' hf' ↦ ends_pure_iff.mpr hf'

/-- Promoting the roots changes no old objects. -/
theorem ends_promoteRoots_frame (hb : o.Beyond h.semispace.active) (he : h.evacuation = o.pass) :
    Ends promoteRoots h (fun _ ↦ Framed o W h) (fun _ _ ↦ True) := by
  rw [promoteRoots, ends_ask_bind, RootStack.markM]
  have hloop : Ends (h.roots.entries.toList.mapM promote) h (fun _ ↦ Framed o W h)
      (fun _ _ ↦ True) :=
    Ends.mapM (fun _ _ ↦ Framed o W h) ⟨.refl hb, he⟩ fun _ _ a _ h' _ hf ↦
      (ends_promote_frame a hf.beyond hf.pass).imp fun _ _ hf' ↦ hf.trans hf'
  rw [bind_assoc]
  exact hloop.bind fun _ h' hf ↦ ⟨⟨hf.beyond, hf.same⟩, hf.pass⟩

/-- The end of an epoch changes no old objects: it scans the copies and clears the nursery. -/
theorem ends_endEpoch_frame {cs : Copies} {roots : RootStack Nat} (hs : h₀.Sound l)
    (hu : Underway h₀ l {} cs roots h) :
    Ends endEpoch h
      (fun _ h' ↦ ∀ p, (h₀.epochOrigin l).Aside p → h'.memory.read p = h.memory.read p)
      (fun _ _ ↦ True) := by
  obtain ⟨promoted, hepoch, -⟩ := hu.epoch
  have he : h.evacuation = (h₀.epochOrigin l).pass := by
    rw [evacuation, hu.table, hu.nursery, hu.settings]
    rfl
  rw [endEpoch, ends_ask_bind, hepoch]
  apply (ends_promoting_frame (W := fun _ ↦ False) he
    (Origin.ends_scanFrom_frame hs.epochOrigin hu.holds)).bind
  rintro ⟨_, tally⟩ h₁ hf p hp
  have hsource : h₁.nursery.region = (h₀.epochOrigin l).pass.source :=
    congrArg Evacuation.source hf.pass
  have hsame : h₁.memory.read p = h.memory.read p := hf.same p hp id
  rw [← hsame, ← ((h₀.epochOrigin l).swept_clear h₁.memory).read p hp.1, ← hsource]

/-! ### The old objects in the course of an epoch -/

/-- The word is a slot of a remembered object or the header of a remembered indirection. -/
inductive Patchable (h : Heap) : Nat → Prop
  | slot {u p : Nat} {slots : Slots} : u ∈ h.nursery.remembered →
      h.memory.slots h.table u = .ok slots → p ∈ slots.list h.memory → Patchable h p
  | husk {u a : Nat} : u ∈ h.nursery.remembered → h.memory.hop? u = some a → Patchable h u

/-- A reference to `a` leads to a young object or on through an indirection. The memory `m` has the
object that it denotes as a direct one in the active half, where `φ` says. -/
structure Redirects (φ : Nat → Nat) (h : Heap) (m : Memory) (a : Nat) : Prop where
  detour : h.nursery.region.contains a = true ∨ h.memory.hop? a ≠ none
  direct : (m.header (φ (h.memory.resolve a))).isIndirection = false
  active : h.semispace.active.contains (φ (h.memory.resolve a)) = true

/-- In the course of an epoch of `h` the memory has become `m`. What was in use of the active half
is as it was but for slots of remembered objects and remembered indirections. The words changed
refer to the objects to which they led, where these are now. -/
structure Patched (φ : Nat → Nat) (h : Heap) (l : Census) (m : Memory) : Prop where
  stays : ∀ d, h.semispace.active.contains d = true → φ d = d
  same : ∀ i < h.semispace.active.cursor, ¬ h.Patchable (h.semispace.active.start + i) →
    m.read (h.semispace.active.start + i) = h.memory.read (h.semispace.active.start + i)
  slot : ∀ u ∈ h.nursery.remembered, h.IsDirect u → ∃ slots,
    h.memory.slots h.table u = .ok slots ∧ ∀ p ∈ slots.list h.memory,
      m.read p = h.memory.read p ∨ ∃ a, h.memory.read p = Word.ofAddr a ∧ h.Redirects φ m a ∧
        m.read p = Word.ofAddr (φ (h.memory.resolve a))
  husk : ∀ u ∈ h.nursery.remembered, ∀ a, h.memory.hop? u = some a →
    m.read u = h.memory.read u ∨ h.Redirects φ m a ∧ m.hop? u = some (φ (h.memory.resolve a))
  header : ∀ s ∈ l.old, h.IsDirect s.start → m.read s.start = h.memory.read s.start
  /-- Primitive fields and the units of tails that hold words. -/
  plain : ∀ s ∈ l.old, ∀ f, h.memory.form? h.table s.start = some f → ¬ f.IsBlock →
    ∀ part, f.Has part → ¬ f.IsSlot part →
      m.read (f.cell h.memory s.start part) = h.memory.read (f.cell h.memory s.start part)

/-- An epoch succeeds, and after each of its phases the old objects are patched for the places where
their referents are in the end. -/
def PatchesOld (h : Heap) (l : Census) : Prop :=
  ∃ φ tally h₁ h₂ h₃ h', beginEpoch h = .ok () h₁ ∧ promoteRoots h₁ = .ok () h₂ ∧
    endEpoch h₂ = .ok tally h₃ ∧ promoteNursery h = .ok () h' ∧ SameStore h₃ h' ∧
    (∃ ts, Takes φ ts h tally h₃) ∧ ∀ m ∈ [h₁.memory, h₂.memory, h₃.memory], h.Patched φ l m

section Patched

variable {cs cs' ds : Copies} {m m' : Memory} {target : Region} {stop a p : Nat} {s u : Span}
  {f : Form} {part : Part} (hs : h.Sound l) (hh : (h.epochOrigin l).Holds cs m target)
include hs hh

private theorem Sound.current_active (hf : h.Object l s f)
    (hn : h.nursery.region.contains (cs.current s.start) = false) :
    (m.header (cs.current s.start)).isIndirection = false ∧
      h.semispace.active.contains (cs.current s.start) = true := by
  have ho := hs.epochOrigin
  obtain ⟨t, g, hst, hcur⟩ := hh.plan.stands ho hf hn
  rw [← hcur]
  refine ⟨Memory.isIndirection_of_form? (hh.form? hst), ?_⟩
  cases hst with
  | stays hm hg => exact hs.contains_old (i := 0) hm (ho.wellFormed.nonempty s hg.mem)
  | copied hc hg =>
    obtain ⟨j, -, hj, -, he⟩ := hh.plan.exists_vacant (i := 0) hc (hh.plan.copy_mem hc).2.2
    have he : t.start = h.semispace.active.start + j := he
    rw [he]
    exact Region.mem_iff.mpr ⟨by omega, Nat.add_lt_add_left hj _⟩

private theorem Sound.redirects (hsw : (h.epochOrigin l).Swept m m')
    (hplan : (h.epochOrigin l).Plan (cs ++ ds) stop) (hf : h.Object l s f)
    (hl : h.memory.Leads a s.start)
    (hn : h.nursery.region.contains (cs.current s.start) = false) (hne : cs.current s.start ≠ a) :
    (cs ++ ds).current (h.memory.resolve a) = cs.current s.start ∧
      h.Redirects (cs ++ ds).current m' a := by
  have ho := hs.epochOrigin
  have hcur : (cs ++ ds).current (h.memory.resolve a) = cs.current s.start := by
    rw [hl.resolve]
    exact hplan.current_append ho hn
  obtain ⟨hdir, hact⟩ := hs.current_active hh hf hn
  refine ⟨hcur, ?_, by rw [hcur, Memory.header, hsw.read _ hn]; exact hdir,
    by rw [hcur]; exact hact⟩
  -- An old object that is referred to directly is where it was.
  by_contra hold
  rw [not_or, not_not, Bool.not_eq_true] at hold
  obtain rfl := (Memory.Leads.here hold.2).unique hl
  have hold : (h.epochOrigin l).Stands cs s s f f :=
    .stays ((hs.not_contains_iff hf.mem).mp hold.1) hf
  exact hne (hold.current_eq ho hh.plan)

/-- In the middle of an epoch that goes on to make the copies `cs'`, the old objects are patched for
where their referents are in the end. -/
theorem Sound.patched (hsw : (h.epochOrigin l).Swept m m') (hpre : cs <+: cs')
    (hplan : (h.epochOrigin l).Plan cs' stop)
    (hframe : ∀ p, (h.epochOrigin l).Aside p → ¬ h.MayPatch l p →
      m'.read p = h.memory.read p) : h.Patched cs'.current l m' := by
  have ho := hs.epochOrigin
  have hw := hs.wellFormed
  obtain ⟨ds, rfl⟩ := hpre
  have hword : ∀ {q}, (h.epochOrigin l).Comes cs q q → m'.read q = m.read q :=
    fun hc ↦ hsw.read _ (hc.not_contains ho hh)
  constructor
  case stays =>
    exact fun d hd ↦
      hplan.current_of_not_contains ho (Region.Apart.symm hs.nursery_apart_active _ hd)
  case same =>
    intro i hi hp
    have hact : h.semispace.active.contains (h.semispace.active.start + i) = true := by
      have := h.semispace.active.cursor_le
      exact Region.mem_iff.mpr ⟨by omega, by omega⟩
    refine hframe _ ⟨Region.Apart.symm hs.nursery_apart_active _ hact,
      fun _ ↦ Nat.add_lt_add_left hi _⟩ fun ⟨u, hu, hrem, hpatch⟩ ↦ hp ?_
    rcases hpatch with ⟨f, part, hf, hpart, he⟩ | ⟨hhop, he⟩
    · exact .slot hrem (Memory.slots_of_form? hf.form?)
        ((hw.mem_slots_iff hf).mpr ⟨part, hpart, he⟩)
    · obtain ⟨a, ha⟩ := Option.ne_none_iff_exists'.mp hhop
      exact he ▸ .husk hrem ha
  case slot =>
    intro u hrem hdir
    obtain ⟨v, hv, rfl⟩ := hs.remembers.old u hrem
    obtain ⟨f, hf⟩ := hs.object_of_direct (List.mem_append_right _ hv) hdir
    refine ⟨_, Memory.slots_of_form? hf.form?, fun p hp ↦ ?_⟩
    obtain ⟨part, hpart, rfl⟩ := (hw.mem_slots_iff hf).mp hp
    have hc : (h.epochOrigin l).Comes cs (f.cell h.memory v.start part)
        (f.cell h.memory v.start part) := ho.comes_self hv hf hpart.has
    have hread := hword hc
    -- A slot that was updated holds the same word if its object is where it referred to.
    rcases hh.word _ _ hc with he | ⟨-, a, s, g, hr, hob, hg, hl, hr', hn⟩
    · exact .inl (hread.trans he)
    · by_cases hca : cs.current s.start = a
      · exact .inl (hread.trans (hr'.trans (hca ▸ hr.symm)))
      · obtain ⟨hcur, hred⟩ := hs.redirects hh hsw hplan hg hl hn hca
        exact .inr ⟨a, hr, hred, by rw [hcur, ← hr']; exact hread⟩
  case husk =>
    intro u hrem a ha
    obtain ⟨v, hv, rfl⟩ := hs.remembers.old u hrem
    have hread : m'.read v.start = m.read v.start :=
      hsw.read _ (ho.not_contains_outside hv)
    rcases hh.husk v hv (by rw [show (h.epochOrigin l).memory.hop? v.start = _ from ha]; simp) with
      he | ⟨d, g, hg, hl, hr, hn⟩
    · exact .inl (hread.trans he)
    · have hl : h.memory.Leads a d.start := hl.of_hop ha
      by_cases hca : cs.current d.start = a
      · left
        rcases hw.header v (List.mem_append_right _ hv) with ⟨f, hf⟩ | ⟨b, hb, hval⟩
        · rw [Memory.hop?_of_form? hf] at ha
          cases ha
        · rw [Memory.hop?_of_read hb (hw.lt_limit hval.denotes.1)] at ha
          obtain rfl := Option.some.inj ha
          rw [hread, hr, hca, hb]
      · obtain ⟨hcur, hred⟩ := hs.redirects hh hsw hplan hg hl hn hca
        obtain ⟨t, k, hst, hct⟩ := hh.plan.stands ho hg hn
        refine .inr ⟨hred, ?_⟩
        rw [Memory.hop?_of_read (hread.trans hr) (hct ▸ hh.stands_lt_limit ho hst), hcur]
  case header =>
    intro s hm hdir
    obtain ⟨f, hf⟩ := hs.object_of_direct (List.mem_append_right _ hm) hdir
    rw [hsw.read _ (ho.not_contains_outside hm), hh.header s s f f (.stays hm hf),
      Memory.read_of_form? hf.form?]
  case plain =>
    intro s hm f hform hb part hp hslot
    have hf : h.Object l s f := ⟨List.mem_append_right _ hm, hform⟩
    have hc : (h.epochOrigin l).Comes cs (f.cell h.memory s.start part)
        (f.cell h.memory s.start part) := ho.comes_self hm hf hp
    refine (hword hc).trans ((hh.word _ _ hc).resolve_right fun ⟨hq, _⟩ ↦ ?_)
    refine ho.not_slot hf hb hp (fun he ↦ ?_) (fun hr ↦ hslot (.inl hr)) hq
    subst he
    exact hslot (.inr ⟨rfl, hp⟩)

end Patched

/-- With headroom an epoch patches the old objects. -/
theorem Sound.patchesOld (hs : h.Sound l) (hroom : h.Headroom) : h.PatchesOld l := by
  have hstuck : ∀ {e}, ¬ EpochStuck h l e := fun he ↦ he.not_headroom hs hroom
  obtain ⟨_, h₁, he₁, ⟨cs₁, hu₁, hq₁⟩, hf₁⟩ := (((ends_beginEpoch hs).and
    (ends_beginEpoch_frame hs)).mono (fun _ _ h ↦ h) fun _ _ he ↦ hstuck he.1).exists_eq_ok
  obtain ⟨_, h₂, he₂, ⟨cs₂, hpre₂, hu₂, hq₂, hr, hn⟩, hf₂⟩ := (((ends_promoteRoots hs hu₁ hq₁).and
    (ends_promoteRoots_frame hf₁.beyond hf₁.pass)).mono (fun _ _ h ↦ h)
      fun _ _ he ↦ hstuck he.1).exists_eq_ok
  obtain ⟨tally, h₃, he₃, ⟨cs₃, m, hpre₃, hp, hobj, hwords, -⟩, hf₃⟩ :=
    (((ends_endEpoch_promoted hs hu₂ hq₂ hr hn).and (ends_endEpoch_frame hs hu₂)).mono
      (fun _ _ h ↦ h) fun _ _ he ↦ hstuck he.1).exists_eq_ok
  have hf₂ := hf₁.trans hf₂
  have hplan := hp.pass.holds.plan
  have hreport : Ends (report .nurseryEpoch tally)
      { h₃ with statistics := h₃.statistics.addMinor tally.objects tally.bytes } _
      (fun _ _ ↦ False) := ends_report
  obtain ⟨_, h', he', hsame, -⟩ := hreport.exists_eq_ok
  refine ⟨Copies.current cs₃, tally, h₁, h₂, h₃, h', he₁, he₂, he₃, ?_, hsame.of_count,
    ⟨_, hp.takes hs hobj hwords⟩, ?_⟩
  · simp only [promoteNursery, bind, EStateM.bind, he₁, he₂, he₃]
    exact he'
  · simp only [List.mem_cons, List.not_mem_nil, or_false]
    rintro m' (rfl | rfl | rfl)
    · exact hs.patched hu₁.holds ⟨rfl, fun _ _ ↦ rfl⟩ (hpre₂.trans hpre₃) hplan hf₁.same
    · exact hs.patched hu₂.holds ⟨rfl, fun _ _ ↦ rfl⟩ hpre₃ hplan hf₂.same
    · exact hs.patched hp.pass.holds hp.swept (List.prefix_refl _) hplan
        fun p ha hw ↦ (hf₃ p ha).trans (hf₂.same p ha hw)

/-- The places in the used part of the active half whose words an epoch changes. -/
def patches (h : Heap) : Option (List Nat) :=
  after? promoteNursery (fun h' ↦ (List.range h.semispace.active.cursor).filter fun i ↦
    h'.memory.read (h.semispace.active.start + i) ≠ h.memory.read (h.semispace.active.start + i)) h

end Heap

namespace Mutator

variable {settings : Settings} {table : TypeTable} {s : Session} {l : Census}

/-- In every session that a program can reach, an epoch moves no old object and patches the old
objects only where the remembered set says, under any root stack that the program can build. -/
theorem Reaches.epoch_patches (hr : Reaches settings table s l) (h : Heap)
    (hre : s.heap.Rerooted l h) : h.PatchesOld l := by
  have hm := (Heap.Moves.refl hr.sound.heap).rerooted hre
  exact hm.sound.patchesOld (hm.headroom hr.headroom)

/-- A run after which an epoch changes two of nine words in use: the header of a remembered
indirection and a slot of a remembered object. -/
theorem patches_sample : ∃ s l, Reaches Sample.smallSettings Sample.nodeTable s l ∧
    s.heap.semispace.active.cursor = 9 ∧ s.heap.patches = some [0, 8] ∧ s.heap.PatchesOld l := by
  obtain ⟨s, l, hs, hr⟩ := Sample.reaches
  have hc : (Sample.session Sample.smallSettings).map (fun s ↦
      (s.heap.semispace.active.cursor, s.heap.patches)) = some (9, some [0, 8]) := by
    decide +kernel
  rw [hs, Option.map_some, Option.some.injEq, Prod.mk.injEq] at hc
  exact ⟨s, l, hr, hc.1, hc.2, hr.epoch_patches _ (.refl hr.sound.heap)⟩

end Mutator

end Tenure
