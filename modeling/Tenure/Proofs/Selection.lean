import Mathlib.Data.Set.Card
import Tenure.Proofs.Packing
import Tenure.Proofs.Promotions

/-!
# What an epoch promotes

An epoch promotes the young objects that a program may still get to, as far as the remembered set
can tell: old objects that are garbage count as well. Each of its passes comes across some of them.
Main statements: `Promoted.taken_iff`, the copies are of just these objects and of the blocks that
they keep; `Reaches.epoch_promotes`, the epoch counts each of them once.
-/

namespace Tenure

namespace Heap

/-- The young objects that a path through young objects leads to from a root, from a slot of a
remembered object or from the target of a remembered indirection. Indirections on the path are
followed. -/
inductive Wanted (h : Heap) : Nat → Prop
  | root {a : Nat} : a ∈ h.roots.toList →
      h.nursery.region.contains (h.memory.resolve a) = true → Wanted h (h.memory.resolve a)
  | slot {u d : Nat} {c : Contents Nat} : u ∈ h.nursery.remembered → h.IsDirect u →
      h.memory.view h.table u = some c → d ∈ c.references →
      h.nursery.region.contains d = true → Wanted h d
  | husk {u a : Nat} : u ∈ h.nursery.remembered → h.memory.hop? u = some a →
      h.nursery.region.contains (h.memory.resolve a) = true → Wanted h (h.memory.resolve a)
  | field {d e : Nat} {c : Contents Nat} : Wanted h d → h.memory.view h.table d = some c →
      e ∈ c.references → h.nursery.region.contains e = true → Wanted h e

/-- The young objects that an epoch has to promote: those above, and their blocks unless tails are
to be moved inline. -/
def Taken (h : Heap) (d : Nat) : Prop :=
  h.Wanted d ∨ h.settings.compactTails = false ∧ h.nursery.region.contains d = true ∧
    ∃ e, h.Wanted e ∧ h.BlockOf e d

/-- An epoch of `h` that has given `tally` and left `h'` has made the copies `ts`. It has copied
just what it had to, and `φ` takes each object to its copy. -/
structure Takes (φ : Nat → Nat) (ts : List Span) (h : Heap) (tally : Tally) (h' : Heap) :
    Prop where
  young : ∀ d, h.Taken d → h.nursery.region.contains d = true
  start : h'.semispace.active.start = h.semispace.active.start
  /-- Nothing but copies was put into the active half. -/
  tiles : Tiles ts (h.semispace.active.start + h.semispace.active.cursor)
    (h'.semispace.active.start + h'.semispace.active.cursor)
  /-- Each object was copied once, and nothing else was. -/
  copies : Set.BijOn φ {d | h.Taken d} {a | IsObject ts a}
  elsewhere : ∀ d, ¬ h.Taken d → φ d = d
  direct : ∀ t ∈ ts, h'.IsDirect t.start
  extent : ∀ t ∈ ts, h'.memory.extent h'.table h'.settings.padding t.start = .ok t.words
  tag : ∀ d, h.Taken d → (h'.memory.header (φ d)).tagBits = (h.memory.header d).tagBits
  size : ∀ d, h.Taken d → (h'.memory.header (φ d)).sizeBits = (h.memory.header d).sizeBits
  view : ∀ d, h.Wanted d →
    h'.memory.view h'.table (φ d) = (h.memory.view h.table d).map (·.map φ)
  tail : ∀ d, h.Wanted d → ((h'.memory.header (φ d)).tailBits = .outOfLine ↔
    (h.memory.header d).tailBits = .outOfLine ∧ h.settings.compactTails = false)
  block : ∀ d, h.Wanted d → (h.memory.header d).tailBits = .outOfLine →
    h.settings.compactTails = false → ∃ b, h.Taken b ∧ h.BlockOf d b
  link : ∀ d b, h.Wanted d → h.Taken b → h.BlockOf d b → h'.BlockOf (φ d) (φ b)
  objects : tally.objects = {d | h.Taken d}.ncard
  words : tally.words = ∑ᶠ d ∈ {d | h.Wanted d}, h.copyWords d
  bytes : tally.bytes = wordBytes * Span.total ts
  used : h'.semispace.active.usedBytes = h.semispace.active.usedBytes + tally.bytes

/-- An epoch succeeds, promotes just what it has to and counts that. -/
def Selects (h : Heap) : Prop :=
  ∃ tally h₁ h', epoch h = .ok tally h₁ ∧ promoteNursery h = .ok () h' ∧ SameStore h₁ h' ∧
    h'.statistics = h.statistics.addMinor tally.objects tally.bytes ∧
    ∃ φ ts, Takes φ ts h tally h₁

variable {h h' : Heap} {l : Census} {cs : Copies} {m : Memory} {s t b : Span} {f g k : Form}
  {a d e : Nat} {tally : Tally}

/-! ### What has to be promoted -/

/-- The block of an object is what the link of a tail out of line leads to. -/
theorem blockOf_iff (hf : h.Object l s f) : h.BlockOf s.start d ↔
    f.tail = .outOfLine ∧ h.memory.read (f.cell h.memory s.start .link) = Word.ofAddr d := by
  rw [BlockOf, blockLink_eq hf, Memory.tailBits_of_form? hf.form?, Option.some.injEq]

section Sound

variable (hs : h.Sound l)
include hs

/-- A remembered object is old. -/
theorem Sound.remembered_old (ha : a ∈ h.nursery.remembered) :
    ∃ u, u ∈ l.old ∧ u.start = a := by
  obtain ⟨u, hu, he⟩ := hs.remembers.old a ha
  exact ⟨u, hu, he⟩

/-- A word refers to one address of the nursery at most. -/
theorem Sound.eq_of_ofAddr (hb : b ∈ l.objects) (hd : h.nursery.region.contains d = true)
    (he : Word.ofAddr b.start = Word.ofAddr d) : b.start = d := by
  have hm := Region.mem_iff.mp hd
  have hlt : d < addressLimit := by
    have hmap := hs.mapped h.nursery.region (by simp [regions]) (d - h.nursery.region.start)
      (by omega)
    rw [Nat.add_sub_cancel' hm.1] at hmap
    exact Nat.lt_of_lt_of_le hmap.2 h.memory.fits
  rw [← hs.wellFormed.toAddr_ofAddr (.of_mem hb), he, Word.toAddr_ofAddr hlt]

/-- What an epoch has to promote is young, and a program can name it. -/
theorem Wanted.object (hd : h.Wanted d) :
    ∃ s f, h.Object l s f ∧ s.start = d ∧ ¬ f.IsBlock ∧ s ∈ l.young := by
  have hyoung : ∀ {s f}, h.Object l s f → ¬ f.IsBlock →
      h.nursery.region.contains s.start = true → ∃ t g, h.Object l t g ∧ t.start = s.start ∧
        ¬ g.IsBlock ∧ t ∈ l.young := by
    intro s f hf hb hc
    exact ⟨s, f, hf, rfl, hb, (hs.contains_iff hf.mem).mp hc⟩
  induction hd with
  | root ha hc =>
    obtain ⟨-, -, s, f, hf, he, hb⟩ := (hs.roots _ ha).denotes
    rw [← he] at hc ⊢
    exact hyoung hf hb hc
  | slot hu hdir hv he hc =>
    obtain ⟨u, hum, rfl⟩ := hs.remembered_old hu
    obtain ⟨g, hg⟩ := hs.object_of_direct (List.mem_append_right _ hum) hdir
    obtain ⟨s, f, hf, rfl, hb⟩ :=
      hs.wellFormed.direct_of_view hg (Memory.not_isBlock_of_view hg.form? hv) hv he
    exact hyoung hf hb hc
  | husk hu hh hc =>
    obtain ⟨u, hum, rfl⟩ := hs.remembered_old hu
    have hv := hs.wellFormed.valid_of_hop? (.of_mem (List.mem_append_right _ hum)) hh
    obtain ⟨-, -, s, f, hf, he, hb⟩ := hv.denotes
    rw [← he] at hc ⊢
    exact hyoung hf hb hc
  | field _ hv he hc ih =>
    obtain ⟨s, f, hf, rfl, hb, -⟩ := ih
    obtain ⟨t, g, hg, rfl, hgb⟩ := hs.wellFormed.direct_of_view hf hb hv he
    exact hyoung hg hgb hc

/-- A block is promoted for the sake of its owner. -/
theorem Taken.owner (hd : h.Taken s.start) (hf : h.Object l s f) (hb : f.IsBlock) :
    h.settings.compactTails = false ∧ ∃ e, h.Wanted e ∧ h.BlockOf e s.start := by
  rcases hd with hw | ⟨hk, -, ho⟩
  · obtain ⟨t, g, hg, he, hgb, -⟩ := hw.object hs
    have hts : t = s := hs.wellFormed.eq_of_start hg.mem hf.mem he
    subst hts
    exact absurd (hg.unique hf ▸ hb) hgb
  · exact ⟨hk, ho⟩

/-- What is no block is promoted for its own sake. -/
theorem Taken.wanted (hd : h.Taken s.start) (hf : h.Object l s f) (hb : ¬ f.IsBlock) :
    h.Wanted s.start := by
  rcases hd with hw | ⟨-, -, e, he, hblock⟩
  · exact hw
  · obtain ⟨t, g, hg, rfl, -⟩ := he.object hs
    obtain ⟨hgt, hl⟩ := (blockOf_iff hg).mp hblock
    obtain ⟨b, k, hk, hlk, hkb, -⟩ := hs.wellFormed.block t g hg hgt
    have hbs : b = s := hs.wellFormed.eq_of_ofAddr hk.mem hf.mem (hlk.symm.trans hl)
    subst hbs
    exact absurd (hk.unique hf ▸ hkb) hb

/-- A chain from an old object to a young one passes a remembered indirection. -/
theorem Sound.wanted_of_leads (ha : IsObject l.objects a)
    (hn : h.nursery.region.contains a = false) (hl : h.memory.Leads a d)
    (hc : h.nursery.region.contains d = true) : h.Wanted d := by
  refine hl.induction (motive := fun x ↦ IsObject l.objects x →
    h.nursery.region.contains x = false → h.Wanted d) ?_ ?_ ha hn
  · intro _ _ hd
    rw [hc] at hd
    cases hd
  · rintro x y hxy hyd ih ⟨u, hu, rfl⟩ hx
    have hold : u ∈ l.old := (hs.not_contains_iff hu).mp hx
    have hy := (hs.wellFormed.valid_of_hop? (.of_mem hu) hxy).denotes.1
    cases hcy : h.nursery.region.contains y with
    | false => exact ih hy hcy
    | true =>
      have hr := hyd.resolve
      rw [← hr] at hc ⊢
      exact .husk (hs.remembers.husks u hold y hxy hcy) hxy hc

/-- An epoch comes across no other young objects than it has to promote. -/
theorem Sound.taken_of_due (hdue : (h.epochOrigin l).Due d) (hf : h.Object l s f)
    (he : s.start = d) (hy : s ∈ l.young) : h.Taken d := by
  have hw := hs.wellFormed
  have hc : ∀ {s}, s ∈ l.young → h.nursery.region.contains s.start = true :=
    fun hm ↦ (hs.contains_iff (List.mem_append_left _ hm)).mpr hm
  -- The induction is on why the object is due: the epoch began with it, or a slot led to it.
  induction hdue generalizing s f with
  | @start a d ha hl =>
    have hl : h.memory.Leads a d := hl
    subst he
    rcases List.mem_append.mp ha with ha | ha
    · have hr := hl.resolve
      have hcs := hc hy
      rw [← hr] at hcs ⊢
      exact .inl (.root ha hcs)
    · obtain ⟨u, hu, rfl⟩ := hs.remembered_old ha
      have hum : u ∈ l.objects := List.mem_append_right _ hu
      exact .inl (hs.wanted_of_leads (.of_mem hum) ((hs.not_contains_iff hum).mpr hu) hl (hc hy))
  | @slot u k part a d _ hk hp hout hr hl ih =>
    have hk : h.Object l u k := hk
    have hl : h.memory.Leads a d := hl
    have hr : Word.toRef? (h.memory.read (k.cell h.memory u.start part)) = some a := hr
    subst he
    rcases hp with hp | ⟨rfl, ht⟩
    · have hkb := hw.not_isBlock_of_isSlot hk (.inl hp)
      have hview := Memory.view_of_form? hk.form? hkb
      have hden : h.memory.denoted? (k.cell h.memory u.start part) = some s.start := by
        rw [Memory.denoted?, hr, Option.map_some, hl.resolve]
      have hmem := (Memory.mem_references_view hk.form? hkb hview).mpr ⟨part, hp, hden⟩
      by_cases huy : u ∈ l.young
      · exact .inl (.field ((ih hk rfl huy).wanted hs hk hkb) hview hmem (hc hy))
      · have huo : u ∈ l.old := (List.mem_append.mp hk.mem).resolve_left huy
        by_cases hrem : u.start ∈ h.nursery.remembered
        · exact .inl (.slot hrem (Memory.isIndirection_of_form? hk.form?) hview hmem (hc hy))
        · have hna : h.nursery.region.contains a = false := by
            by_contra hca
            exact hrem (hs.remembers.slots u k huo hk part (.inl hp) a hr
              (Bool.eq_true_of_not_eq_false hca))
          exact .inl (hs.wanted_of_leads (hw.isObject_of_slot hk (.inl hp) hr) hna hl (hc hy))
    · have hkb := hw.not_isBlock_of_outOfLine hk ht
      obtain ⟨b, kb, hb, hlk, -⟩ := hw.block u k hk ht
      have hbs : b = s := by
        rw [hlk, hw.toRef?_ofAddr (.of_mem hb.mem)] at hr
        cases hr
        exact hw.eq_of_start hb.mem hf.mem ((Memory.Leads.here hb.hop?).unique hl)
      subst hbs
      -- The block of an old object is old, so the owner is young as the block is.
      have huy : u ∈ l.young := (hs.block_generation hk ht hb hlk).1.mp hy
      rcases hout with hout | hshape
      · exact absurd hout (hs.epochOrigin.not_mem_outside huy)
      · exact .inr ⟨(Evacuation.tail_shape_eq_outOfLine_iff.mp hshape.has).2, hc hy, u.start,
          (ih hk rfl huy).wanted hs hk hkb, (blockOf_iff hk).mpr ⟨ht, hlk⟩⟩

end Sound

/-! ### What was promoted -/

section Promoted

variable (hs : h.Sound l) (hp : Promoted h l cs m h')
include hs hp

/-- What had to be promoted is stood for outside the nursery. -/
theorem Promoted.stands_of_wanted (hd : h.Wanted d) : ∃ s t f g, s.start = d ∧
    (h.epochOrigin l).Stands cs s t f g ∧ ¬ f.IsBlock ∧ t.start = cs.current d := by
  have ho := hs.epochOrigin
  induction hd with
  | @root a ha =>
    obtain ⟨-, -, s, f, hf, he, hb⟩ := (hs.roots a ha).denotes
    have hn := hp.clean a ha
    rw [← he] at hn ⊢
    obtain ⟨t, g, hst, hcur⟩ := hp.pass.holds.plan.stands ho hf hn
    exact ⟨s, t, f, g, rfl, hst, hb, hcur⟩
  | slot hu hdir hv he =>
    obtain ⟨u, hum, rfl⟩ := hs.remembered_old hu
    obtain ⟨g, hg⟩ := hs.object_of_direct (List.mem_append_right _ hum) hdir
    exact hp.pass.stands_of_view ho hp.swept (.stays hum hg)
      (Memory.not_isBlock_of_view hg.form? hv) hv he
  | @husk v a hu hh =>
    obtain ⟨u, hum, rfl⟩ := hs.remembered_old hu
    have hum' : IsObject l.objects u.start := .of_mem (List.mem_append_right _ hum)
    have hv := hs.wellFormed.valid_of_hop? hum' hh
    obtain ⟨-, hl, s, f, hf, he, hb⟩ := hv.denotes
    rw [← he] at hl ⊢
    have hlead := hp.pass.holds.leads ho hf hum' (.hop hh hl)
    have hden := hp.pass.denotes ho hp.swept hf hb
      (.of_mem (Origin.mem_arrived.mpr (.inl hum))) hlead
    obtain ⟨t, g, hst, hcur⟩ := hp.pass.stands_of_denotes ho hp.swept hf hden
    exact ⟨s, t, f, g, rfl, hst, hb, hcur⟩
  | field _ hv he _ ih =>
    obtain ⟨s, t, f, g, rfl, hst, hb, -⟩ := ih
    exact hp.pass.stands_of_view ho hp.swept hst hb hv he

/-- What had to be promoted for its own sake was copied. -/
theorem Promoted.copied (hd : h.Wanted d) : ∃ s t f, s.start = d ∧ (s, t) ∈ cs ∧
    h.Object l s f ∧ ¬ f.IsBlock ∧ t.start = cs.current d := by
  obtain ⟨s, t, f, g, rfl, hst, hb, hcur⟩ := hp.stands_of_wanted hs hd
  obtain ⟨s', f', hf', he, -, hy⟩ := hd.object hs
  obtain rfl := hs.wellFormed.eq_of_start hf'.mem hst.object.mem he
  exact ⟨s', t, f, rfl, (hst.mem_of_inside hs.epochOrigin hy).1, hst.object, hb, hcur⟩

/-- With its owner a block was copied, unless the tail was moved inline. -/
theorem Promoted.block_copied (hc : (s, t) ∈ cs) (hf : h.Object l s f) (ht : f.tail = .outOfLine)
    (hk : h.settings.compactTails = false) : ∃ b k tb, h.Object l b k ∧ k.IsBlock ∧ (b, tb) ∈ cs ∧
      h.memory.read (f.cell h.memory s.start .link) = Word.ofAddr b.start ∧
      h'.memory.read (f.cell h'.memory t.start .link) = Word.ofAddr tb.start := by
  have ho := hs.epochOrigin
  have hshape : (h.epochOrigin l).pass.shape f = f := Evacuation.shape_of_keeping hk
  have hst : (h.epochOrigin l).Stands cs s t f f := by
    have hst := Origin.Stands.copied (o := h.epochOrigin l) hc hf
    rwa [hshape] at hst
  obtain ⟨b, k, tb, hb, hkb, -, hl, htb, hr⟩ := hp.pass.link ho hp.swept hst ht
  have hgen := hs.block_generation hf ht hb hl
  have hy : b ∈ l.young := hgen.1.mpr (hp.pass.holds.plan.object _ hc).1
  exact ⟨b, k, tb, hb, hkb, (htb.mem_of_inside ho hy).1, hl, hr⟩

/-- The copies are of what had to be promoted and of nothing else. -/
theorem Promoted.taken_iff : h.Taken d ↔ ∃ c ∈ cs, c.1.start = d := by
  constructor
  · rintro (hd | ⟨hk, hn, e, he, hb⟩)
    · obtain ⟨s, t, f, rfl, hc, -⟩ := hp.copied hs hd
      exact ⟨(s, t), hc, rfl⟩
    · obtain ⟨s, t, f, rfl, hc, hf, -⟩ := hp.copied hs he
      obtain ⟨ht, hl⟩ := (blockOf_iff hf).mp hb
      obtain ⟨b, k, tb, hbo, -, hcb, hlb, -⟩ := hp.block_copied hs hc hf ht hk
      exact ⟨(b, tb), hcb, hs.eq_of_ofAddr hbo.mem hn (hlb.symm.trans hl)⟩
  · rintro ⟨⟨s, t⟩, hc, rfl⟩
    obtain ⟨hy, f, hf, -⟩ := hp.pass.holds.plan.object _ hc
    exact hs.taken_of_due (hp.pass.holds.plan.due _ hc) hf rfl hy

/-- The copies are direct objects of the shape that the pass gives them. -/
theorem Promoted.direct_copy (hc : (s, t) ∈ cs) (hf : h.Object l s f) :
    h'.memory.Direct h'.table ((h.epochOrigin l).arrived cs) t
      ((h.epochOrigin l).pass.shape f) := by
  rw [hp.table]
  exact (hp.pass.direct_iff hs.epochOrigin hp.swept).mpr ⟨s, f, .copied hc hf⟩

/-- With each copy of an object there is the copy of its block, and the other way around. -/
theorem Promoted.closed : h'.Closed ((h.epochOrigin l).arrived cs) (cs.map Prod.snd) := by
  have ho := hs.epochOrigin
  have hplan := hp.pass.holds.plan
  have hw : h'.memory.WellFormed h'.table h'.settings.padding ((h.epochOrigin l).arrived cs) :=
    (hp.sound hs).wellFormed
  have hcopy : ∀ t ∈ cs.map Prod.snd, ∀ g,
      h'.memory.Direct h'.table ((h.epochOrigin l).arrived cs) t g →
      ∃ s f, (s, t) ∈ cs ∧ h.Object l s f ∧ (h.epochOrigin l).pass.shape f = g := by
    intro t ht g hg
    obtain ⟨⟨s, t⟩, hc, rfl⟩ := List.mem_map.mp ht
    obtain ⟨-, f, hf, -⟩ := hplan.object _ hc
    exact ⟨s, f, hc, hf, (hp.direct_copy hs hc hf).unique hg⟩
  refine ⟨hplan.tiles.nodup, fun t ht ↦ ?_, fun t ht g hg hb ↦ ?_, fun t ht g hg hgt u hu hl ↦ ?_,
    fun t ht g hg hgt ↦ ?_⟩
  · obtain ⟨⟨s, t⟩, hc, rfl⟩ := List.mem_map.mp ht
    obtain ⟨-, f, hf, -⟩ := hplan.object _ hc
    exact ⟨_, hp.direct_copy hs hc hf⟩
  · obtain ⟨s, f, hc, hf, rfl⟩ := hcopy t ht g hg
    have htaken : h.Taken s.start := (hp.taken_iff hs).mpr ⟨_, hc, rfl⟩
    obtain ⟨hk, e, he, hblock⟩ := htaken.owner hs hf (Evacuation.isBlock_shape.mp hb)
    obtain ⟨u, tu, fu, rfl, hcu, hfu, hub, -⟩ := hp.copied hs he
    obtain ⟨hut, hul⟩ := (blockOf_iff hfu).mp hblock
    obtain ⟨b, k, tb, hbo, -, hcb, hlb, hr⟩ := hp.block_copied hs hcu hfu hut hk
    have hbs : b = s := hs.wellFormed.eq_of_ofAddr hbo.mem hf.mem (hlb.symm.trans hul)
    subst hbs
    have htb : tb = t := (Prod.mk.inj (hplan.eq_of_fst ho hcb hc rfl)).2
    subst htb
    have hshape : (h.epochOrigin l).pass.shape fu = fu := Evacuation.shape_of_keeping hk
    have hdir := hp.direct_copy hs hcu hfu
    rw [hshape] at hdir
    exact ⟨tu, List.mem_map.mpr ⟨_, hcu, rfl⟩, fu, hdir, hub, hut, hr⟩
  · obtain ⟨s, f, hc, hf, rfl⟩ := hcopy t ht g hg
    obtain ⟨hft, hk⟩ := Evacuation.tail_shape_eq_outOfLine_iff.mp hgt
    have hshape : (h.epochOrigin l).pass.shape f = f := Evacuation.shape_of_keeping hk
    obtain ⟨b, k, tb, hbo, -, hcb, -, hr⟩ := hp.block_copied hs hc hf hft hk
    rw [hshape, hr] at hl
    have hdir := hp.direct_copy hs hcb hbo
    have htu : tb = u := hw.eq_of_ofAddr hdir.mem hu hl
    subst htu
    exact List.mem_map.mpr ⟨_, hcb, rfl⟩
  · obtain ⟨s, f, hc, hf, rfl⟩ := hcopy t ht g hg
    rw [hp.settings]
    exact (Evacuation.tail_shape_eq_outOfLine_iff.mp hgt).2

/-- The headers of the copies have the tags and sizes of the objects, and their tails lie where they
should. -/
theorem Promoted.header (hc : (s, t) ∈ cs) :
    (h'.memory.header t.start).tagBits = (h.memory.header s.start).tagBits ∧
    (h'.memory.header t.start).sizeBits = (h.memory.header s.start).sizeBits ∧
    ((h'.memory.header t.start).tailBits = .outOfLine ↔
      (h.memory.header s.start).tailBits = .outOfLine ∧ h.settings.compactTails = false) ∧
    ((h'.memory.header t.start).tailBits = (h.memory.header s.start).tailBits ∨
      h.settings.compactTails = true ∧ (h'.memory.header t.start).tailBits = .inline) := by
  obtain ⟨-, f, hf, -⟩ := hp.pass.holds.plan.object _ hc
  have hg := (hp.direct_copy hs hc hf).form?
  have hf : h.Object l s f := hf
  have htail := Evacuation.tail_shape_eq_outOfLine_iff (e := (h.epochOrigin l).pass) (f := f)
  rw [Memory.tagBits_of_form? hg, Memory.sizeBits_of_form? hg, Memory.tailBits_of_form? hg,
    Memory.tagBits_of_form? hf.form?, Memory.sizeBits_of_form? hf.form?,
    Memory.tailBits_of_form? hf.form?, Evacuation.tag_shape, Evacuation.size_shape]
  refine ⟨rfl, rfl, htail, ?_⟩
  by_cases hsh : f.tail = .outOfLine ∧ (h.epochOrigin l).pass.compact = true
  · right
    rw [Evacuation.shape, if_pos hsh]
    exact ⟨hsh.2, rfl⟩
  · left
    rw [Evacuation.shape, if_neg hsh]

/-- The words of the copies are those that the objects need that had to be promoted. -/
theorem Promoted.total_eq :
    Span.total (cs.map Prod.snd) = ∑ᶠ d ∈ {d | h.Wanted d}, h.copyWords d := by
  have ho := hs.epochOrigin
  have hplan := hp.pass.holds.plan
  let ns := cs.filter fun c ↦ (h'.memory.header c.2.start).tagBits ≠ blockTag
  have hnodes : h'.nodesOf (cs.map Prod.snd) = ns.map Prod.snd := by
    rw [nodesOf, List.filter_map]
    rfl
  have hns : ∀ c ∈ ns, h.Wanted c.1.start ∧ h'.copyWords c.2.start = h.copyWords c.1.start := by
    intro c hc
    obtain ⟨hc, hb⟩ := List.mem_filter.mp hc
    obtain ⟨-, f, hf, -⟩ := hplan.object c hc
    have hf : h.Object l c.1 f := hf
    obtain ⟨htag, hsize, -, htail⟩ := hp.header hs (s := c.1) (t := c.2) hc
    rw [decide_eq_true_eq, htag, Memory.tagBits_of_form? hf.form?] at hb
    exact ⟨((hp.taken_iff hs).mpr ⟨c, hc, rfl⟩).wanted hs hf hb,
      copyWords_congr hp.table hp.settings htag hsize htail⟩
  have hn : (ns.map fun c ↦ c.1.start).Nodup := by
    refine List.Nodup.map_on (fun c hc c' hc' he ↦ ?_) (hplan.nodup.filter _)
    exact hplan.eq_of_fst ho (List.mem_of_mem_filter hc) (List.mem_of_mem_filter hc') he
  have hmem : ∀ d, d ∈ {d | h.Wanted d} ↔ d ∈ ns.map fun c ↦ c.1.start := by
    intro d
    rw [Set.mem_ofPred_eq, List.mem_map]
    constructor
    · intro hd
      obtain ⟨s, t, f, rfl, hc, hf, hb, -⟩ := hp.copied hs hd
      obtain ⟨htag, -⟩ := hp.header hs hc
      refine ⟨(s, t), List.mem_filter.mpr ⟨hc, ?_⟩, rfl⟩
      rw [decide_eq_true_eq, htag, Memory.tagBits_of_form? hf.form?]
      exact hb
    · rintro ⟨c, hc, rfl⟩
      exact (hns c hc).1
  rw [(hp.closed hs).total_eq (hp.sound hs).wellFormed, hnodes,
    finsum_mem_eq_sum h.copyWords hn hmem, List.map_map, List.map_map]
  exact congrArg List.sum (List.map_congr_left fun c hc ↦ (hns c hc).2)

/-- There are as many copies as objects that had to be promoted. -/
theorem Promoted.length_eq : cs.length = {d | h.Taken d}.ncard := by
  have hplan := hp.pass.holds.plan
  have hn : (cs.map fun c ↦ c.1.start).Nodup :=
    hplan.nodup.map_on fun c hc c' hc' he ↦ hplan.eq_of_fst hs.epochOrigin hc hc' he
  have hset : {d | h.Taken d} = ↑(cs.map fun c ↦ c.1.start).toFinset := by
    ext d
    rw [Set.mem_ofPred_eq, hp.taken_iff hs, List.coe_toFinset, Set.mem_ofPred_eq, List.mem_map]
  rw [hset, Set.ncard_coe_finset, List.toFinset_card_of_nodup hn, List.length_map]

/-- Each object that had to be promoted has a copy. -/
theorem Promoted.exists_copy (hd : h.Taken d) :
    ∃ s t, (s, t) ∈ cs ∧ s.start = d ∧ t.start = cs.current d := by
  obtain ⟨⟨s, t⟩, hc, rfl⟩ := (hp.taken_iff hs).mp hd
  exact ⟨s, t, hc, rfl, (hp.pass.holds.plan.current_of_mem hs.epochOrigin hc).symm⟩

/-- Each copy is of one object. -/
theorem Promoted.bijOn :
    Set.BijOn cs.current {d | h.Taken d} {a | IsObject (cs.map Prod.snd) a} := by
  have ho := hs.epochOrigin
  have hplan := hp.pass.holds.plan
  refine ⟨fun d hd ↦ ?_, fun d hd e he heq ↦ ?_, fun a ha ↦ ?_⟩
  · obtain ⟨s, t, hc, rfl, hcur⟩ := hp.exists_copy hs hd
    exact ⟨t, List.mem_map.mpr ⟨_, hc, rfl⟩, hcur⟩
  · obtain ⟨s, t, hc, rfl, -⟩ := hp.exists_copy hs hd
    obtain ⟨s', t', hc', rfl, -⟩ := hp.exists_copy hs he
    obtain ⟨-, f, hf, -⟩ := hplan.object _ hc
    obtain ⟨-, f', hf', -⟩ := hplan.object _ hc'
    exact congrArg Span.start (hplan.current_inj ho hf hf' heq)
  · obtain ⟨t, ht, rfl⟩ := ha
    obtain ⟨⟨s, t⟩, hc, rfl⟩ := List.mem_map.mp ht
    exact ⟨s.start, (hp.taken_iff hs).mpr ⟨_, hc, rfl⟩, hplan.current_of_mem ho hc⟩

/-- With an object its block had to be promoted, unless tails are to be moved inline. -/
theorem Promoted.exists_block (hd : h.Wanted d) (ht : (h.memory.header d).tailBits = .outOfLine)
    (hk : h.settings.compactTails = false) : ∃ e, h.Taken e ∧ h.BlockOf d e := by
  obtain ⟨s, t, f, rfl, hc, hf, -⟩ := hp.copied hs hd
  rw [Memory.tailBits_of_form? hf.form?] at ht
  obtain ⟨b, k, tb, -, -, hcb, hl, -⟩ := hp.block_copied hs hc hf ht hk
  exact ⟨b.start, (hp.taken_iff hs).mpr ⟨_, hcb, rfl⟩, (blockOf_iff hf).mpr ⟨ht, hl⟩⟩

/-- The copy of the block is the block of the copy. -/
theorem Promoted.blockOf_current (hd : h.Wanted d) (he : h.Taken e) (hb : h.BlockOf d e) :
    h'.BlockOf (cs.current d) (cs.current e) := by
  have hw := hs.wellFormed
  obtain ⟨s, t, f, rfl, hc, hf, -, hcur⟩ := hp.copied hs hd
  obtain ⟨ht, hl⟩ := (blockOf_iff hf).mp hb
  obtain ⟨⟨u, tu⟩, hcu, rfl⟩ := (hp.taken_iff hs).mp he
  obtain ⟨-, k, hk, -⟩ := hp.pass.holds.plan.object _ hcu
  have hk : h.Object l u k := hk
  obtain ⟨b, kb, hbo, hlb, hkb, -⟩ := hw.block s f hf ht
  have hbu : b = u := hw.eq_of_ofAddr hbo.mem hk.mem (hlb.symm.trans hl)
  subst hbu
  obtain ⟨hkeep, -⟩ := he.owner hs hbo hkb
  obtain ⟨b', k', tb, hbo', -, hcb, hlb', hr⟩ := hp.block_copied hs hc hf ht hkeep
  have hbb : b' = b := hw.eq_of_ofAddr hbo'.mem hbo.mem (hlb'.symm.trans hl)
  subst hbb
  have hdir := hp.direct_copy hs hc hf
  rw [show (h.epochOrigin l).pass.shape f = f from Evacuation.shape_of_keeping hkeep] at hdir
  rw [← hcur, show cs.current b'.start = tb.start from
    hp.pass.holds.plan.current_of_mem hs.epochOrigin hcb]
  exact blockOf_of_form? hdir.form? ht hr

/-- An epoch copies just what it has to. -/
theorem Promoted.takes (hobj : tally.objects = cs.length)
    (hwords : tally.words + h.semispace.active.cursor = h'.semispace.active.cursor) :
    Takes cs.current (cs.map Prod.snd) h tally h' := by
  have ho := hs.epochOrigin
  have hplan := hp.pass.holds.plan
  have hstart : h'.semispace.active.start = h.semispace.active.start := hp.pass.holds.start
  have htotal : tally.words = Span.total (cs.map Prod.snd) := by
    have htiles : h.semispace.active.start + h.semispace.active.cursor +
        Span.total (cs.map Prod.snd) =
        h'.semispace.active.start + h'.semispace.active.cursor := hplan.tiles.add_total
    omega
  constructor
  case start => exact hstart
  case tiles => exact hplan.tiles
  case young =>
    intro d hd
    obtain ⟨s, t, hc, rfl, -⟩ := hp.exists_copy hs hd
    have hy := (hplan.object _ hc).1
    exact ho.contains_inside (i := 0) hy
      (ho.wellFormed.nonempty s (Origin.mem_objects.mpr (.inl hy)))
  case copies => exact hp.bijOn hs
  case elsewhere =>
    intro d hd
    exact Copies.current_of_forall_ne fun c hc he ↦ hd ((hp.taken_iff hs).mpr ⟨c, hc, he⟩)
  case direct =>
    intro t ht
    obtain ⟨g, hg⟩ := (hp.closed hs).direct t ht
    exact Memory.isIndirection_of_form? hg.form?
  case extent =>
    intro t ht
    obtain ⟨g, hg⟩ := (hp.closed hs).direct t ht
    rw [Memory.extent_of_form? _ hg.form?, (hp.sound hs).wellFormed.extent t g hg]
  case tag =>
    intro d hd
    obtain ⟨s, t, hc, rfl, hcur⟩ := hp.exists_copy hs hd
    rw [← hcur]
    exact (hp.header hs hc).1
  case size =>
    intro d hd
    obtain ⟨s, t, hc, rfl, hcur⟩ := hp.exists_copy hs hd
    rw [← hcur]
    exact (hp.header hs hc).2.1
  case view =>
    intro d hd
    obtain ⟨s, t, f, rfl, hc, hf, hb, hcur⟩ := hp.copied hs hd
    rw [← hcur, hp.table]
    exact hp.pass.view ho hp.swept (.copied hc hf) hb
  case tail =>
    intro d hd
    obtain ⟨s, t, hc, rfl, hcur⟩ := hp.exists_copy hs (.inl hd)
    rw [← hcur]
    exact (hp.header hs hc).2.2.1
  case block => exact fun d hd ht hk ↦ hp.exists_block hs hd ht hk
  case link => exact fun d e hd he hb ↦ hp.blockOf_current hs hd he hb
  case objects => exact hobj.trans (hp.length_eq hs)
  case words => exact htotal.trans (hp.total_eq hs)
  case bytes => rw [Tally.bytes, htotal, Nat.mul_comm]
  case used =>
    simp only [Region.usedBytes, Tally.bytes, ← hwords, Nat.add_mul]
    exact Nat.add_comm _ _

end Promoted

/-- An epoch copies just what it has to. -/
theorem Completed.takes (hs : h.Sound l) (hc : Completed h l tally h') :
    ∃ φ ts, Takes φ ts h tally h' := by
  obtain ⟨cs, m, hp, hobj, hwords, -⟩ := hc
  exact ⟨_, _, hp.takes hs hobj hwords⟩

end Heap

namespace Mutator

variable {settings : Settings} {table : TypeTable} {s : Session} {l : Census}

open Heap in
/-- In every session that a program can reach, an epoch promotes just what it has to, under any root
stack that the program can build. -/
theorem Reaches.epoch_promotes (hr : Reaches settings table s l) (h : Heap)
    (hre : s.heap.Rerooted l h) : h.Selects := by
  have hm := (Moves.refl hr.sound.heap).rerooted hre
  have hs := hm.sound
  obtain ⟨tally, h₁, he, hc⟩ := ((ends_epoch hs).mono (fun _ _ hg ↦ hg)
    fun _ _ hstuck ↦ hstuck.not_headroom hs (hm.headroom hr.headroom)).exists_eq_ok
  obtain ⟨-, -, -, -, -, hstat⟩ := id hc
  have hreport : Ends (report .nurseryEpoch tally)
      { h₁ with statistics := h₁.statistics.addMinor tally.objects tally.bytes } _
      (fun _ _ ↦ False) := ends_report
  obtain ⟨_, h', he', hsame, hstat'⟩ := hreport.exists_eq_ok
  refine ⟨tally, h₁, h', he, ?_, hsame.of_count, ?_, hc.takes hs⟩
  · rw [promoteNursery_eq]
    simp only [bind, EStateM.bind, he]
    exact he'
  · rw [hstat', hstat]

/-- A run after which one object of two is to be promoted: the other one is its block. -/
theorem promotes_sample : ∃ s l, Reaches Sample.smallSettings Sample.nodeTable s l ∧
    s.heap.nursery.remembered.length = 2 ∧ s.heap.nursery.region.cursor = 8 ∧ s.heap.Selects := by
  obtain ⟨s, l, hs, hr⟩ := Sample.reaches
  have hc : (Sample.session Sample.smallSettings).map (fun s ↦
      (s.heap.nursery.remembered.length, s.heap.nursery.region.cursor)) = some (2, 8) := by
    decide +kernel
  rw [hs, Option.map_some, Option.some.injEq, Prod.mk.injEq] at hc
  exact ⟨s, l, hr, hc.1, hc.2, hr.epoch_promotes _ (.refl hr.sound.heap)⟩

end Mutator

end Tenure
