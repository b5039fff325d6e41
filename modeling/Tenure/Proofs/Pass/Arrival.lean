import Tenure.Proofs.Pass.Scan
import Tenure.Proofs.View

/-!
# The end of a copying pass

A pass is over when everything outside the source is settled; then the source is swept. Main
statements: `Over.wellFormed`, the memory is well-formed for the objects outside the source, copies
included; `Over.view`, a copied object looks as it did at the origin, up to where the objects are
that it refers to.
-/

namespace Tenure.Origin

/-- The objects outside the source, the copies included. -/
def arrived (o : Origin) (cs : Copies) : List Span := o.outside ++ cs.map Prod.snd

/-- Nothing outside the source leads into it. -/
structure Over (o : Origin) (cs : Copies) (m : Memory) (target : Region) : Prop where
  holds : o.Holds cs m target
  copies : o.AllSettled m cs
  outside : ∀ u ∈ o.outside, o.Quiet m u

/-- The memory is as before outside the source. -/
structure Swept (o : Origin) (m m' : Memory) : Prop where
  endAddr : m'.endAddr = m.endAddr
  read : ∀ a, o.pass.source.contains a = false → m'.read a = m.read a

variable {o : Origin} {cs : Copies} {m m' : Memory} {target : Region} {s t u : Span} {f g : Form}
  {a b d i p q : Nat} {part : Part}

/-- What has arrived is what lay outside the source and what was copied. -/
theorem mem_arrived : t ∈ o.arrived cs ↔ t ∈ o.outside ∨ ∃ s, (s, t) ∈ cs := by
  simp only [arrived, List.mem_append, List.mem_map, Prod.exists, exists_eq_right]

/-- What stands for an object has arrived. -/
theorem Stands.mem_arrived (hs : o.Stands cs s t f g) : t ∈ o.arrived cs := by
  cases hs with
  | stays h _ => exact Origin.mem_arrived.mpr (.inl h)
  | copied h _ => exact Origin.mem_arrived.mpr (.inr ⟨s, h⟩)

/-- The copies go on to fill the target. -/
theorem Filled.tiles_arrived (hf : o.Filled) (h : o.Holds cs m target) :
    Tiles (o.arrived cs) target.start (target.start + target.cursor) := by
  refine tiles_append.mpr ⟨_, ?_, h.plan.tiles⟩
  rw [h.start]
  exact hf

private theorem Filled.contains (hf : o.Filled) {i : Nat} (hs : s ∈ o.outside) (hi : i < s.words) :
    o.target.contains (s.start + i) = true := by
  have hm := Tiles.mem hf hs
  have hc := o.target.cursor_le
  simp only [Span.stop] at hm
  exact Region.mem_iff.mpr ⟨by omega, by omega⟩

/-- The copies lie apart from all other objects outside the source. -/
theorem Sound.apart_arrived (ho : o.Sound) (h : o.Holds cs m target) :
    (o.arrived cs).Pairwise Span.Apart := by
  refine List.pairwise_append.mpr ⟨(List.pairwise_append.mp ho.wellFormed.apart).2.1,
    h.plan.tiles.pairwise, fun s hs t ht ↦ ?_⟩
  obtain ⟨c, hc, rfl⟩ := List.mem_map.mp ht
  refine Span.apart_of_forall_ne (ho.nonempty_outside hs) (h.plan.copy_mem hc).2.2
    fun i hi j hj ↦ ?_
  obtain ⟨k, hk, hk', -, he⟩ := h.plan.exists_vacant hc hj
  rw [he]
  exact ho.ne_vacant hs hi hk hk'

/-! ### Sweeping the source -/

/-- Clearing what was in use of the source sweeps it. -/
theorem swept_clear (o : Origin) (m : Memory) :
    o.Swept m (m.clear o.pass.source.start o.pass.source.cursor) where
  endAddr := by rw [Memory.endAddr_clear]
  read := by
    intro a ha
    have hc := o.pass.source.cursor_le
    rw [← Bool.not_eq_true, Region.mem_iff] at ha
    rw [Memory.read_clear, if_neg (by omega)]

/-- Outside the target and what was in use of the source, all words are as they were. -/
theorem Over.read_clear (ho : o.Sound) (hf : o.Filled) (h : o.Over cs m target)
    (ha : o.target.contains a = false)
    (hu : a < o.pass.source.start ∨ o.pass.source.start + o.pass.source.cursor ≤ a) :
    (m.clear o.pass.source.start o.pass.source.cursor).read a = o.memory.read a := by
  rw [Memory.read_clear, if_neg (by omega)]
  refine h.holds.elsewhere a ha (fun s hs i hi he ↦ ?_) fun c hc he ↦ ?_
  · rw [← he, hf.contains hs hi] at ha
    cases ha
  · have hi := (h.holds.plan.object c hc).1
    have hn := ho.nonempty_inside hi
    have hm := ho.inside c.1 hi
    simp only [Span.stop] at hm
    omega

/-- Of three regions, one is the source and one the target of the pass. After it they are separate
again, and the source is empty. -/
theorem Over.separate {other : Region} (ho : o.Sound) (hf : o.Filled) (h : o.Over cs m target)
    (hs : Region.Separate o.memory [o.pass.source, o.target, other]) :
    Region.Separate (m.clear o.pass.source.start o.pass.source.cursor)
      [o.pass.source.reset, target, other] := by
  have hh := h.holds
  have hw := swept_clear o m
  have hstart : target.start = o.target.start := hh.start
  have hcap : target.capacity = o.target.capacity := hh.capacity
  have htarget : ∀ a, target.contains a = o.target.contains a := by
    intro a
    simp only [Region.contains, hstart, hcap]
  obtain ⟨hst, hso, hto⟩ := Region.pairwise_apart_iff.mp hs.apart
  constructor
  · apply Region.pairwise_apart_iff.mpr
    refine ⟨fun a ha ↦ ?_, hso, fun a ha ↦ ?_⟩
    · rw [htarget, hst a ha]
    · rw [htarget] at ha
      exact hto a ha
  · intro r hr i hi
    simp only [Memory.Mapped, hw.endAddr, hh.endAddr]
    simp only [List.mem_cons, List.not_mem_nil, or_false] at hr
    rcases hr with rfl | rfl | rfl
    · exact hs.mapped o.pass.source (by simp) i hi
    · rw [hstart]
      exact hs.mapped o.target (by simp) i (by omega)
    · exact hs.mapped r (by simp) i hi
  · intro r hr i hi hi'
    simp only [List.mem_cons, List.not_mem_nil, or_false] at hr
    rcases hr with rfl | rfl | rfl
    · -- The part of the source that was in use was cleared, and the rest was vacant before.
      show (m.clear _ _).read (o.pass.source.start + i) = 0
      have hi' : i < o.pass.source.capacity := hi'
      by_cases hlt : i < o.pass.source.cursor
      · rw [Memory.read_clear, if_pos ⟨Nat.le_add_right _ _, Nat.add_lt_add_left hlt _⟩]
      · have hin : o.pass.source.contains (o.pass.source.start + i) = true :=
          Region.mem_iff.mpr ⟨by omega, by omega⟩
        rw [h.read_clear ho hf (hst _ hin) (by omega)]
        exact hs.vacant o.pass.source (by simp) i (by omega) hi'
    · have hin : o.target.contains (r.start + i) = true :=
        Region.mem_iff.mpr ⟨by omega, by omega⟩
      rw [hw.read _ (ho.not_contains_target hin)]
      exact hh.vacant i hi hi'
    · have hin : r.contains (r.start + i) = true := Region.mem_iff.mpr ⟨by omega, by omega⟩
      have hns := hso.symm _ hin
      have hc := o.pass.source.cursor_le
      rw [← Bool.not_eq_true, Region.mem_iff] at hns
      rw [h.read_clear ho hf (hto.symm _ hin) (by omega)]
      exact hs.vacant r (by simp) i hi hi'

section Over

variable (ho : o.Sound) (h : o.Over cs m target) (hw : o.Swept m m')
include ho h

omit ho in
/-- What stands for an object is settled. -/
theorem Over.settled (hs : o.Stands cs s t f g) : o.Settled m t g := by
  cases hs with
  | stays hm hf => exact (h.outside s hm).object f hf
  | copied hc hf => exact h.copies _ hc f hf

/-- The parts of an object outside the source come from those of the object it stands for. -/
theorem Over.comes (hs : o.Stands cs s t f g) (hp : g.Has part) :
    o.Comes cs (f.cell o.memory s.start part) (g.cell m t.start part) :=
  h.holds.comes_cell ho hs hp fun hn ↦
    h.settled hs .link (.inr ⟨rfl, (Form.exists_of_not_own hn).choose_spec.2⟩)

include hw

private theorem Over.read_start (ht : t ∈ o.arrived cs) : m'.read t.start = m.read t.start := by
  apply hw.read _
  rcases mem_arrived.mp ht with hm | ⟨s, hc⟩
  · have hmo : t ∈ o.objects := mem_objects.mpr (.inr hm)
    exact (ho.not_contains_iff hmo).mpr hm
  · obtain ⟨k, hk, -⟩ := (h.holds.plan.object _ hc).2
    have hst : o.Stands cs s t k _ := .copied hc hk
    exact hst.not_contains ho h.holds.plan (hst.words_pos ho h.holds.plan)

/-- An object outside the source is direct if it stands for an object of the origin. -/
theorem Over.direct_iff :
    m'.Direct o.pass.table (o.arrived cs) t g ↔ ∃ s f, o.Stands cs s t f g := by
  constructor
  · rintro ⟨hm, hg⟩
    rw [Memory.form?_congr (h.read_start ho hw hm)] at hg
    rcases mem_arrived.mp hm with hout | ⟨s, hc⟩
    · have hmo : t ∈ o.objects := mem_objects.mpr (.inr hout)
      rcases ho.wellFormed.header t hmo with ⟨f, hf⟩ | ⟨a, hr, hv⟩
      · have hst : o.Stands cs t t f f := .stays hout ⟨hmo, hf⟩
        obtain rfl := Option.some.inj (hg.symm.trans (h.holds.form? hst))
        exact ⟨t, g, hst⟩
      · -- An indirection of the origin is one still.
        obtain ⟨_, ha, -⟩ := id hv
        have hh := Memory.hop?_of_read hr (ho.wellFormed.lt_limit ha)
        have hn := Memory.hop?_of_form? hg
        rcases h.holds.husk t hout (by rw [hh]; simp) with he | ⟨d, k, hd, -, hr', hn'⟩
        · rw [Memory.hop?_congr he, hh] at hn
          cases hn
        · obtain ⟨x, l, hx, hcur⟩ := h.holds.plan.stands ho hd hn'
          rw [← hcur] at hr'
          rw [Memory.hop?_of_read hr' (h.holds.stands_lt_limit ho hx)] at hn
          cases hn
    · obtain ⟨-, k, hk, -⟩ := h.holds.plan.object _ hc
      have hst : o.Stands cs s t k _ := .copied hc hk
      obtain rfl := Option.some.inj (hg.symm.trans (h.holds.form? hst))
      exact ⟨s, k, hst⟩
  · rintro ⟨s, f, hs⟩
    exact ⟨hs.mem_arrived, by
      rw [Memory.form?_congr (h.read_start ho hw hs.mem_arrived), h.holds.form? hs]⟩

/-- Every part of an object outside the source is as it was before the sweep. -/
theorem Over.read_comes (hc : o.Comes cs q p) : m'.read p = m.read p :=
  hw.read p (hc.not_contains ho h.holds)

private theorem Over.cell_eq (hs : o.Stands cs s t f g) :
    g.cell m' t.start part = g.cell m t.start part :=
  Form.cell_congr fun hg ↦ h.read_comes ho hw (h.comes ho hs (show g.Has .link from hg))

/-- An indirection outside the source leads to an object outside it. -/
theorem Over.hop? (ht : t ∈ o.arrived cs) (hh : m'.hop? t.start = some a) :
    t ∈ o.outside ∧ o.memory.hop? t.start ≠ none ∧ IsObject (o.arrived cs) a := by
  rw [Memory.hop?_congr (h.read_start ho hw ht)] at hh
  have hstands : ∀ s f g, ¬ o.Stands cs s t f g := by
    intro s f g hs
    rw [Memory.hop?_of_form? (h.holds.form? hs)] at hh
    cases hh
  rcases mem_arrived.mp ht with hout | ⟨s, hc⟩
  · have hmo : t ∈ o.objects := mem_objects.mpr (.inr hout)
    rcases ho.wellFormed.header t hmo with ⟨f, hf⟩ | ⟨b, hr, hv⟩
    · exact absurd (.stays hout ⟨hmo, hf⟩) (hstands t f f)
    · obtain ⟨_, hb, -⟩ := id hv
      have hh₀ := Memory.hop?_of_read hr (ho.wellFormed.lt_limit hb)
      have hne : o.memory.hop? t.start ≠ none := by rw [hh₀]; simp
      have haim := (h.outside t hout).husk hne a hh
      refine ⟨hout, hne, ?_⟩
      rcases h.holds.husk t hout hne with he | ⟨d, k, hd, -, hr', hn'⟩
      · rw [Memory.hop?_congr he, hh₀] at hh
        cases hh
        obtain ⟨x, hx, rfl⟩ := hb
        exact .of_mem (mem_arrived.mpr (.inl ((ho.not_contains_iff hx).mp haim)))
      · obtain ⟨x, l, hx, hcur⟩ := h.holds.plan.stands ho hd hn'
        rw [← hcur] at hr'
        rw [Memory.hop?_of_read hr' (h.holds.stands_lt_limit ho hx)] at hh
        cases hh
        exact .of_mem hx.mem_arrived
  · obtain ⟨-, k, hk, -⟩ := h.holds.plan.object _ hc
    exact absurd (.copied hc hk) (hstands s k _)

/-- Chains outside the source are as they were before the sweep. -/
theorem Over.leads (ha : IsObject (o.arrived cs) a) (hl : m.Leads a d) : m'.Leads a d := by
  refine hl.induction (motive := fun x ↦ IsObject (o.arrived cs) x → m'.Leads x d) ?_ ?_ ha
  · rintro hn ⟨t, ht, rfl⟩
    exact .here (by rw [Memory.hop?_congr (h.read_start ho hw ht), hn])
  · rintro x y hx - ih ⟨t, ht, rfl⟩
    have hx' : m'.hop? t.start = some y := by
      rw [Memory.hop?_congr (h.read_start ho hw ht), hx]
    exact .hop hx' (ih (h.hop? ho hw ht hx').2.2)

/-- A reference to an object outside the source that leads to where an object is now denotes it. -/
theorem Over.denotes (hd : o.Object s f) (hb : ¬ f.IsBlock)
    (ha : IsObject (o.arrived cs) a) (hl : m.Leads a (cs.current s.start)) :
    m'.Denotes o.pass.table (o.arrived cs) a (cs.current s.start) := by
  refine ⟨ha, h.leads ho hw ha hl, ?_⟩
  -- The end of the chain is an object outside the source as well.
  have hend : IsObject (o.arrived cs) (cs.current s.start) := by
    refine hl.induction (motive := fun x ↦ IsObject (o.arrived cs) x →
      IsObject (o.arrived cs) (cs.current s.start)) (fun _ h ↦ h) ?_ ha
    rintro x y hx - ih ⟨t, ht, rfl⟩
    exact ih (h.hop? ho hw ht (by rw [Memory.hop?_congr (h.read_start ho hw ht), hx])).2.2
  have hn : o.pass.source.contains (cs.current s.start) = false := by
    obtain ⟨t, ht, he⟩ := hend
    rw [← he]
    rcases mem_arrived.mp ht with hm | ⟨u, hc⟩
    · have hmo : t ∈ o.objects := mem_objects.mpr (.inr hm)
      exact (ho.not_contains_iff hmo).mpr hm
    · obtain ⟨k, hk, -⟩ := (h.holds.plan.object _ hc).2
      have hst : o.Stands cs u t k _ := .copied hc hk
      exact hst.not_contains ho h.holds.plan (hst.words_pos ho h.holds.plan)
  obtain ⟨t, g, ht, he⟩ := h.holds.plan.stands ho hd hn
  exact ⟨t, g, (h.direct_iff ho hw).mpr ⟨s, f, ht⟩, he, fun hgb ↦ hb (ht.isBlock_iff.mp hgb)⟩

/-- A reference of an object outside the source denotes where the object is now that the reference
of the origin denoted. -/
theorem Over.reference (hs : o.Stands cs s t f g) (hp : g.Refers part) :
    o.memory.read (f.cell o.memory s.start part) = Word.null ∧
      m'.read (g.cell m' t.start part) = Word.null ∨
    ∃ b a d, o.memory.read (f.cell o.memory s.start part) = Word.ofAddr b ∧
      o.memory.Denotes o.pass.table o.objects b d ∧
      m'.read (g.cell m' t.start part) = Word.ofAddr a ∧
      m'.Denotes o.pass.table (o.arrived cs) a (cs.current d) := by
  have hc := h.comes ho hs hp.has
  have hq : o.Slot (f.cell o.memory s.start part) :=
    ⟨s, f, part, hs.object, .inl (hs.refers_iff.mp hp), rfl⟩
  have hcl := h.settled hs part (.inl hp)
  rw [h.cell_eq ho hw hs, h.read_comes ho hw hc]
  rcases ho.wellFormed.reference s f hs.object part (hs.refers_iff.mp hp) with hz | ⟨b, hb, hv⟩
  · left
    rcases h.holds.carries_slot ho hq (h.holds.word _ _ hc) with hn | ⟨b, -, -, -, hb, hob, -⟩
    · exact hn
    · exact absurd (hb.symm.trans hz) (ho.wellFormed.mapped_of_isObject hob).ofAddr_ne_null
  · right
    obtain ⟨d, hob, hl, x, k, hx, rfl, hkb⟩ := hv
    refine ⟨b, ?_⟩
    rcases h.holds.word _ _ hc with he | ⟨-, b', x', k', hb', hob', hx', hl', hr, hn⟩
    · rw [he, hb, clean_ofAddr (ho.wellFormed.toRef?_ofAddr hob)] at hcl
      have hoa : IsObject (o.arrived cs) b := by
        obtain ⟨y, hy, rfl⟩ := hob
        exact .of_mem (mem_arrived.mpr (.inl ((ho.not_contains_iff hy).mp hcl)))
      exact ⟨b, x.start, hb, ⟨hob, hl, x, k, hx, rfl, hkb⟩, he.trans hb,
        h.denotes ho hw hx hkb hoa (h.holds.leads ho hx hob hl)⟩
    · obtain rfl : b' = b := ho.wellFormed.ofAddr_inj hob' hob (hb'.symm.trans hb)
      have hxx : x'.start = x.start := hl'.unique hl
      rw [hxx] at hr hn
      obtain ⟨y, l, hy, hcur⟩ := h.holds.plan.stands ho hx hn
      refine ⟨cs.current x.start, x.start, hb, ⟨hob, hl, x, k, hx, rfl, hkb⟩, hr, ?_⟩
      refine h.denotes ho hw hx hkb ⟨y, hy.mem_arrived, hcur⟩ (.here ?_)
      rw [← hcur]
      exact Memory.hop?_of_form? (h.holds.form? hy)

/-- A link of an object outside the source leads to where the block is now. -/
theorem Over.link (hs : o.Stands cs s t f g) (hg : g.tail = .outOfLine) :
    ∃ b k tb, o.Object b k ∧ k.IsBlock ∧ k.size = f.size ∧
      o.memory.read (f.cell o.memory s.start .link) = Word.ofAddr b.start ∧
      o.Stands cs b tb k k ∧ m'.read (g.cell m' t.start .link) = Word.ofAddr tb.start := by
  obtain ⟨b, k, tb, hb, hkb, -, hkz, hl, htb, hr, -⟩ :=
    h.holds.link ho hs hg (h.settled hs .link (.inr ⟨rfl, hg⟩))
  refine ⟨b, k, tb, hb, hkb, hkz, hl, htb, ?_⟩
  rw [h.cell_eq ho hw hs, h.read_comes ho hw (h.comes ho hs (show g.Has .link from hg)), hr]

/-- An object outside the source is direct, or an indirection to an object that a program can
name. -/
theorem Over.header (ht : t ∈ o.arrived cs) : (∃ s f g, o.Stands cs s t f g) ∨
    ∃ a, m'.read t.start = (Header.forward (Word.ofAddr a)).word ∧
      m'.Valid o.pass.table (o.arrived cs) a := by
  rcases mem_arrived.mp ht with hout | ⟨s, hc⟩
  · have hmo : t ∈ o.objects := mem_objects.mpr (.inr hout)
    rcases ho.wellFormed.header t hmo with ⟨f, hf⟩ | ⟨b, hr, d, hob, hl, x, k, hx, rfl, hkb⟩
    · exact .inl ⟨t, f, f, .stays hout ⟨hmo, hf⟩⟩
    · right
      have hh := Memory.hop?_of_read hr (ho.wellFormed.lt_limit hob)
      have hne : o.memory.hop? t.start ≠ none := by rw [hh]; simp
      have hrt := h.read_start ho hw ht
      rcases h.holds.husk t hout hne with he | ⟨y, l, hy, hly, hr', hn'⟩
      · have hr' : m'.read t.start = (Header.forward (Word.ofAddr b)).word := by rw [hrt, he, hr]
        have hoa := (h.hop? ho hw ht (Memory.hop?_of_read hr' (ho.wellFormed.lt_limit hob))).2.2
        exact ⟨b, hr', (h.denotes ho hw hx hkb hoa (h.holds.leads ho hx hob hl)).valid⟩
      · have hyx : y.start = x.start := hly.unique (.hop hh hl)
        rw [hyx] at hr' hn'
        obtain ⟨z, l, hz, hcur⟩ := h.holds.plan.stands ho hx hn'
        refine ⟨cs.current x.start, by rw [hrt, hr'], ?_⟩
        refine (h.denotes ho hw hx hkb ⟨z, hz.mem_arrived, hcur⟩ (.here ?_)).valid
        rw [← hcur]
        exact Memory.hop?_of_form? (h.holds.form? hz)
  · obtain ⟨-, k, hk, -⟩ := h.holds.plan.object _ hc
    exact .inl ⟨s, k, _, .copied hc hk⟩

private theorem Over.owner {t t' : Span} {g g' : Form}
    (hg : m'.Direct o.pass.table (o.arrived cs) t g)
    (hg' : m'.Direct o.pass.table (o.arrived cs) t' g') (htl : g.tail = .outOfLine)
    (htl' : g'.tail = .outOfLine)
    (he : m'.read (g.cell m' t.start .link) = m'.read (g'.cell m' t'.start .link)) : t = t' := by
  obtain ⟨s, f, hs⟩ := (h.direct_iff ho hw).mp hg
  obtain ⟨s', f', hs'⟩ := (h.direct_iff ho hw).mp hg'
  obtain ⟨b, k, tb, hb, -, -, hl, htb, hr⟩ := h.link ho hw hs htl
  obtain ⟨b', k', tb', hb', -, -, hl', htb', hr'⟩ := h.link ho hw hs' htl'
  have htt : tb.start = tb'.start := by
    rw [← Word.toAddr_ofAddr (h.holds.stands_lt_limit ho htb), ← hr, he, hr',
      Word.toAddr_ofAddr (h.holds.stands_lt_limit ho htb')]
  obtain ⟨rfl, -⟩ := htb.unique ho h.holds.plan htb' (htb.words_pos ho h.holds.plan)
    (htb'.words_pos ho h.holds.plan) htt
  have hss : s = s' := by
    refine ho.wellFormed.owner s f s' f' hs.object hs'.object ?_ ?_ (hl.trans hl'.symm)
    · rwa [← hs.form_eq htl]
    · rwa [← hs'.form_eq htl']
  subst hss
  have hst : t.start = t'.start := by
    rw [← hs.current_eq ho h.holds.plan, hs'.current_eq ho h.holds.plan]
  exact (hs.unique ho h.holds.plan hs' (hs.words_pos ho h.holds.plan)
    (hs'.words_pos ho h.holds.plan) hst).2.1

/-- After the sweep the memory is well-formed for the objects outside the source. -/
theorem Over.wellFormed : m'.WellFormed o.pass.table o.pass.padding (o.arrived cs) := by
  constructor
  case apart => exact ho.apart_arrived h.holds
  case nonempty =>
    intro t ht
    rcases mem_arrived.mp ht with hm | ⟨s, hc⟩
    · exact ho.nonempty_outside hm
    · exact (h.holds.plan.copy_mem hc).2.2
  case mapped =>
    intro t ht i hi
    have hmt : o.memory.Mapped (t.start + i) := by
      rcases mem_arrived.mp ht with hm | ⟨s, hc⟩
      · exact ho.wellFormed.mapped t (mem_objects.mpr (.inr hm)) i hi
      · obtain ⟨-, k, hk, -⟩ := h.holds.plan.object _ hc
        have hst : o.Stands cs s t k _ := .copied hc hk
        exact hst.mapped ho h.holds.plan hi
    simp only [Memory.Mapped, hw.endAddr, h.holds.endAddr] at hmt ⊢
    exact hmt
  case header =>
    intro t ht
    rcases h.header ho hw ht with ⟨s, f, g, hs⟩ | hhusk
    · exact .inl ⟨g, ((h.direct_iff ho hw).mpr ⟨s, f, hs⟩).form?⟩
    · exact .inr hhusk
  case extent =>
    intro t g hg
    obtain ⟨s, f, hs⟩ := (h.direct_iff ho hw).mp hg
    exact hs.words_eq ho h.holds.plan
  case blank =>
    intro t g hg i hi hi'
    obtain ⟨s, f, hs⟩ := (h.direct_iff ho hw).mp hg
    rw [hw.read _ (hs.not_contains ho h.holds.plan hi')]
    exact h.holds.blank s t f g hs i hi hi'
  case reference =>
    intro t g hg part hp
    obtain ⟨s, f, hs⟩ := (h.direct_iff ho hw).mp hg
    rcases h.reference ho hw hs hp with ⟨-, hz⟩ | ⟨-, a, d, -, -, hr, hden⟩
    · exact .inl hz
    · exact .inr ⟨a, hr, hden.valid⟩
  case block =>
    intro t g hg htl
    obtain ⟨s, f, hs⟩ := (h.direct_iff ho hw).mp hg
    obtain ⟨b, k, tb, -, hkb, hkz, -, htb, hr⟩ := h.link ho hw hs htl
    refine ⟨tb, k, (h.direct_iff ho hw).mpr ⟨b, k, htb⟩, hr, hkb, ?_⟩
    rw [hkz, hs.form_eq htl]
  case owner => exact fun t g t' g' hg hg' htl htl' he ↦ h.owner ho hw hg hg' htl htl' he
  case inline =>
    intro t g hg hgb
    obtain ⟨s, f, hs⟩ := (h.direct_iff ho hw).mp hg
    have hfi := ho.wellFormed.inline s f hs.object (hs.isBlock_iff.mp hgb)
    cases hs with
    | stays => exact hfi
    | copied => rwa [Evacuation.shape_of_inline hfi]

/-- A reference part of an object outside the source denotes where that is now which it denoted. -/
theorem Over.denoted?_eq (hs : o.Stands cs s t f g) (hp : g.Refers part) :
    m'.denoted? (g.cell m' t.start part) =
      (o.memory.denoted? (f.cell o.memory s.start part)).map cs.current := by
  rcases h.reference ho hw hs hp with ⟨hz, hz'⟩ | ⟨b, a, d, hb, hden, hr, hden'⟩
  · simp only [Memory.denoted?, hz, hz']
    rfl
  · have hwf := h.wellFormed ho hw
    simp only [Memory.denoted?, hb, hr, ho.wellFormed.toRef?_ofAddr hden.1,
      hwf.toRef?_ofAddr hden'.1, Option.map_some, hden.resolve, hden'.resolve]

/-- What stands for an object looks as the object did, up to where the objects are that it refers
to. -/
theorem Over.view (hs : o.Stands cs s t f g) (hb : ¬ f.IsBlock) :
    m'.view o.pass.table t.start =
      (o.memory.view o.pass.table s.start).map (·.map cs.current) := by
  have hg := ((h.direct_iff ho hw).mpr ⟨s, f, hs⟩).form?
  have hgb : ¬ g.IsBlock := fun hb' ↦ hb (hs.isBlock_iff.mp hb')
  have htype : g.type = f.type := by
    cases hs with
    | stays => rfl
    | copied => exact Evacuation.type_shape ..
  have hsize : g.size = f.size := by
    cases hs with
    | stays => rfl
    | copied => exact Evacuation.size_shape ..
  refine Memory.view_eq_map _ hs.object.form? hb hg hgb htype hsize
    (fun part hp hne hnr ↦ ?_) fun part hr ↦ ?_
  · have hpg : g.Has part := by
      cases hs with
      | stays => exact hp
      | copied => exact Evacuation.has_shape hp hne
    have hc := h.comes ho hs hpg
    rw [h.cell_eq ho hw hs, h.read_comes ho hw hc]
    rcases h.holds.word _ _ hc with he | ⟨hq, -⟩
    · exact he
    · exact absurd hq (ho.not_slot hs.object hb hp hne hnr)
  · exact h.denoted?_eq ho hw hs (hs.refers_iff.mpr hr)

end Over

end Tenure.Origin
