import Tenure.Proofs.Extents
import Tenure.Proofs.Pass.Steps

/-!
# Room for the copies

A pass copies each object once at most, and no copy takes more words than its object and the block
of that; where a copy takes in the units of a block, the block itself is not copied. So a target
with as many free words as are in use of the source has room for all copies. Main statements:
`Selection.total_le`, the copies take no more words than are in use of the source; `Stuck.lt`, a
pass that fails does so in a target without that room.
-/

namespace Tenure.Origin

variable {o : Origin} {cs : Copies} {s t : Span} {f : Form} {a stop : Nat} {st : CopyState}
  {e : Fault}

section Sound

variable (ho : o.Sound)
include ho

/-- A reference to an object that a program can name does not lead to a block. -/
theorem Sound.not_isBlock_of_leads (hv : o.memory.Valid o.pass.table o.objects a)
    (hl : o.memory.Leads a s.start) (hf : o.Object s f) : ¬ f.IsBlock := by
  obtain ⟨d, -, hl', s', f', hf', rfl, hb⟩ := hv
  have hs : s' = s := ho.wellFormed.eq_of_start hf'.mem hf.mem (hl'.unique hl)
  subst hs
  rwa [hf.unique hf']

/-- A compacting pass does not come across the blocks of the source. -/
theorem Due.not_isBlock (hd : o.Due s.start) (hc : o.pass.compact = true) (hi : s ∈ o.inside)
    (hf : o.Object s f) : ¬ f.IsBlock := by
  have hw := ho.wellFormed
  generalize he : s.start = d at hd
  cases hd with
  | @start a d ha hl =>
    subst he
    rcases ho.starts a ha with hv | ⟨u, hu, rfl⟩
    · exact ho.not_isBlock_of_leads hv hl hf
    · have hmo : u ∈ o.objects := mem_objects.mpr (.inr hu)
      rcases hw.header u hmo with ⟨g, hg⟩ | ⟨b, hr, hv⟩
      · -- A direct object outside the source is the end of its own chain.
        have hus : u = s :=
          hw.eq_of_start hmo hf.mem ((Memory.Leads.here (Memory.hop?_of_form? hg)).unique hl)
        exact absurd hu (hus ▸ ho.not_mem_outside hi)
      · have hh := Memory.hop?_of_read hr (hw.lt_limit hv.denotes.1)
        exact ho.not_isBlock_of_leads hv (hl.of_hop hh) hf
  | @slot s' f' part a d _ hs' hp hout hr hl =>
    subst he
    rcases hp with hp | ⟨rfl, ht⟩
    · rcases hw.reference s' f' hs' part hp with hz | ⟨b, hb, hv⟩
      · rw [hz] at hr
        cases hr
      · rw [hb, hw.toRef?_ofAddr hv.denotes.1] at hr
        cases hr
        exact ho.not_isBlock_of_leads hv hl hf
    · -- The copies have no links, and the links outside the source do not lead into it.
      obtain ⟨b, k, hk, -, -, -, hb, hbi, -⟩ := ho.block hs' ht
      rw [hb, hw.toRef?_ofAddr (.of_mem hk.mem)] at hr
      cases hr
      have hbs : b = s :=
        hw.eq_of_start hk.mem hf.mem ((Memory.Leads.here hk.hop?).unique hl)
      subst hbs
      rcases hout with hout | hsh
      · exact absurd hout (ho.not_mem_outside (hbi.mp hi))
      · have := (Evacuation.tail_shape_eq_outOfLine_iff.mp hsh.has).2
        rw [hc] at this
        cases this

/-- What an object of the source takes up lies in the source. -/
theorem Sound.mem_inside_of_mem_spansOf (hs : o.Object s f) (hi : s ∈ o.inside)
    (h : t ∈ o.memory.spansOf o.pass.table o.pass.padding s) : t ∈ o.inside := by
  rcases ho.wellFormed.mem_spansOf hs h with rfl | ⟨ht, hb, hl⟩
  · exact hi
  · obtain ⟨b, k, hk, -, -, -, hl', hbi, -⟩ := ho.block hs ht
    have hbt : b = t := ho.wellFormed.eq_of_ofAddr hk.mem hb.mem (hl'.symm.trans hl)
    exact hbt ▸ hbi.mpr hi

/-- A copy has no more words than its object takes up. -/
theorem Sound.words_shape_le (hs : o.Object s f) : (o.pass.shape f).words o.pass.padding ≤
    Span.total (o.memory.spansOf o.pass.table o.pass.padding s) := by
  rw [ho.wellFormed.total_spansOf hs, Evacuation.shape]
  split
  · next h => exact f.words_inline_le_footprint _ h.1
  · exact Memory.words_le_footprint f _

-- If the pass does not compact, every copy is as long as its object.
private theorem Selection.total_le_of_keeping (hp : o.Selection cs) (hn : (cs.map Prod.fst).Nodup)
    (hc : o.pass.compact = false) : Span.total (cs.map Prod.snd) ≤ Span.total o.inside := by
  have hwords : (cs.map Prod.snd).map Span.words = (cs.map Prod.fst).map Span.words := by
    simp only [List.map_map]
    refine List.map_congr_left fun c hm ↦ ?_
    obtain ⟨-, f, hf, hw⟩ := hp.object c hm
    simp only [Function.comp_apply, hw, Evacuation.shape_of_keeping hc,
      ho.wellFormed.extent c.1 f hf]
  rw [Span.total, hwords]
  refine Span.total_le hn fun s hs ↦ ?_
  obtain ⟨c, hm, rfl⟩ := List.mem_map.mp hs
  exact (hp.object c hm).1

-- If it does, no block is copied, so each one counts for its owner only.
private theorem Selection.total_le_of_compacting (hp : o.Selection cs)
    (hn : (cs.map Prod.fst).Nodup) (hc : o.pass.compact = true) :
    Span.total (cs.map Prod.snd) ≤ Span.total o.inside := by
  have hobj : ∀ s ∈ cs.map Prod.fst, s ∈ o.inside ∧ ∃ f, o.Object s f ∧ ¬ f.IsBlock := by
    intro s hs
    obtain ⟨c, hm, rfl⟩ := List.mem_map.mp hs
    obtain ⟨hi, f, hf, -⟩ := hp.object c hm
    exact ⟨hi, f, hf, Due.not_isBlock ho (hp.due c hm) hc hi hf⟩
  calc Span.total (cs.map Prod.snd)
      ≤ ((cs.map Prod.fst).map fun s ↦
          Span.total (o.memory.spansOf o.pass.table o.pass.padding s)).sum := by
        simp only [Span.total, List.map_map]
        refine List.sum_le_sum fun c hm ↦ ?_
        obtain ⟨-, f, hf, hw⟩ := hp.object c hm
        simp only [Function.comp_apply, hw]
        exact ho.words_shape_le hf
    _ = Span.total ((cs.map Prod.fst).flatMap
          (o.memory.spansOf o.pass.table o.pass.padding)) := (Span.total_flatMap _ _).symm
    _ ≤ Span.total o.inside := by
        refine Span.total_le
          (ho.wellFormed.nodup_flatMap_spansOf hn fun s hs ↦ (hobj s hs).2) fun t ht ↦ ?_
        obtain ⟨s, hs, ht⟩ := List.mem_flatMap.mp ht
        obtain ⟨hi, f, hf, -⟩ := hobj s hs
        exact ho.mem_inside_of_mem_spansOf hf hi ht

/-- The copies take no more words than are in use of the source. -/
theorem Selection.total_le (hp : o.Selection cs) :
    Span.total (cs.map Prod.snd) ≤ o.pass.source.cursor := by
  have hn : (cs.map Prod.fst).Nodup := List.pairwise_map.mpr hp.once
  have htotal : Span.total o.inside ≤ o.pass.source.cursor := by
    have := Span.total_le_of_apart (List.pairwise_append.mp ho.wellFormed.apart).1 ho.inside
    omega
  refine Nat.le_trans ?_ htotal
  cases hc : o.pass.compact with
  | false => exact hp.total_le_of_keeping ho hn hc
  | true => exact hp.total_le_of_compacting ho hn hc

/-- A pass fills no more words of the target than are in use of the source. -/
theorem Plan.stop_le (hp : o.Plan cs stop) :
    stop ≤ o.target.start + o.target.cursor + o.pass.source.cursor := by
  rw [← hp.tiles.add_total]
  exact Nat.add_le_add_left (hp.toSelection.total_le ho) _

/-- A pass that fails does so in a target with fewer free words than are in use of the source. -/
theorem Stuck.lt (h : o.Stuck e st) : o.target.free < o.pass.source.cursor := by
  obtain ⟨cs, d, f, hh, hf, hi, hdue, hw, hlt, -⟩ := h
  have hsel : o.Selection (cs ++ [(d, ⟨0, (o.pass.shape f).words o.pass.padding⟩)]) :=
    hh.plan.toSelection.append hi hf hdue hw rfl
  have hle := hsel.total_le ho
  have htotal := hh.plan.tiles.add_total
  rw [List.map_append, Span.total_append] at hle
  simp only [List.map_cons, List.map_nil, Span.total_cons, Span.total_nil] at hle
  have := hh.start
  have := hh.capacity
  have := o.target.cursor_le
  simp only [Region.free]
  omega

end Sound

end Tenure.Origin
