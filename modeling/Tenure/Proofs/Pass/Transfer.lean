import Tenure.Proofs.Graph
import Tenure.Proofs.Pass.Arrival

/-!
# The graph after a copying pass

A pass that has evacuated the roots and is over leaves the graph that they reach as it was, where
each object goes by its new place. Main statement: `Over.sameGraph`.
-/

namespace Tenure.Origin

variable {o : Origin} {cs : Copies} {m m' : Memory} {target : Region} {h h' : Heap}

/-- The heap `h` is as at the origin of the pass, and `h'` as after it. -/
structure Transfer (o : Origin) (cs : Copies) (m' : Memory) (h h' : Heap) : Prop where
  table : o.pass.table = h.table
  compact : o.pass.compact = h.settings.compactTails
  memory : o.memory = h.memory
  table' : h'.table = h.table
  settings' : h'.settings = h.settings
  memory' : h'.memory = m'
  /-- Every root was evacuated. -/
  roots' : h'.roots.toList = h.roots.toList.map fun a ↦ cs.current (h.memory.resolve a)
  valid : ∀ a ∈ h.roots.toList, o.memory.Valid o.pass.table o.objects a
  clean : ∀ a ∈ h.roots.toList,
    o.pass.source.contains (cs.current (h.memory.resolve a)) = false

section Over

variable (ho : o.Sound) (hov : o.Over cs m target) (hw : o.Swept m m')
include ho hov hw

/-- What a reference denotes after the sweep has been moved out of the source. -/
theorem Over.stands_of_denotes {s : Span} {f : Form} {a : Nat} (hf : o.Object s f)
    (hd : m'.Denotes o.pass.table (o.arrived cs) a (cs.current s.start)) :
    ∃ t g, o.Stands cs s t f g ∧ t.start = cs.current s.start := by
  obtain ⟨-, -, u, k, hu, hue, -⟩ := hd
  obtain ⟨x, l, hx⟩ := (hov.direct_iff ho hw).mp hu
  have hn := hx.not_contains ho hov.holds.plan (hx.words_pos ho hov.holds.plan)
  rw [Nat.add_zero, hue] at hn
  exact hov.holds.plan.stands ho hf hn

/-- What an object denoted that is stood for has been moved out of the source as well. -/
theorem Over.stands_of_view {s t : Span} {f g : Form} {d : Nat} {c : Contents Nat}
    (hs : o.Stands cs s t f g) (hb : ¬ f.IsBlock)
    (hc : o.memory.view o.pass.table s.start = some c) (hm : d ∈ c.references) :
    ∃ s' t' f' g', s'.start = d ∧ o.Stands cs s' t' f' g' ∧ ¬ f'.IsBlock ∧
      t'.start = cs.current d := by
  obtain ⟨part, hp, hden⟩ := (Memory.mem_references_view hs.object.form? hb hc).mp hm
  rcases hov.reference ho hw hs (hs.refers_iff.mpr hp) with ⟨hz, -⟩ | ⟨b, a, d, hb, hd, -, hd'⟩
  · rw [Memory.denoted?, hz] at hden
    cases hden
  · rw [Memory.denoted?, hb, ho.wellFormed.toRef?_ofAddr hd.1, Option.map_some,
      hd.resolve] at hden
    cases hden
    obtain ⟨-, -, s', f', hf', rfl, hb'⟩ := hd
    obtain ⟨t', g', hs', hcur⟩ := hov.stands_of_denotes ho hw hf' hd'
    exact ⟨s', t', f', g', rfl, hs', hb', hcur⟩

variable (ht : o.Transfer cs m' h h')
include ht

/-- Every node has been moved out of the source. -/
theorem Over.stands_of_live {d : Nat} (hd : h.Live d) :
    ∃ s t f g, s.start = d ∧ o.Stands cs s t f g ∧ ¬ f.IsBlock ∧ t.start = cs.current d := by
  induction hd with
  | @root a ha =>
    obtain ⟨-, -, s, f, hf, he, hb⟩ := (ht.valid a ha).denotes
    have hn := ht.clean a ha
    rw [ht.memory] at he
    rw [← he] at hn ⊢
    obtain ⟨t, g, hs, hcur⟩ := hov.holds.plan.stands ho hf hn
    exact ⟨s, t, f, g, rfl, hs, hb, hcur⟩
  | @field d e c _ hc hm ih =>
    obtain ⟨s, t, f, g, rfl, hs, hb, -⟩ := ih
    rw [← ht.memory, ← ht.table] at hc
    exact hov.stands_of_view ho hw hs hb hc hm

/-- The roots refer to objects outside the source directly. -/
theorem Over.direct_root {a : Nat} (ha : a ∈ h'.roots.toList) :
    ∃ t g, h'.memory.Direct h'.table (o.arrived cs) t g ∧ ¬ g.IsBlock ∧ t.start = a := by
  rw [ht.roots'] at ha
  obtain ⟨b, hb, rfl⟩ := List.mem_map.mp ha
  obtain ⟨s, t, f, g, -, hst, hnb, hcur⟩ := hov.stands_of_live ho hw ht (.root hb)
  rw [ht.memory', ht.table', ← ht.table]
  exact ⟨t, g, (hov.direct_iff ho hw).mpr ⟨s, f, hst⟩,
    fun hgb ↦ hnb (hst.isBlock_iff.mp hgb), hcur⟩

/-- The roots are valid again. -/
theorem Over.valid_root {a : Nat} (ha : a ∈ h'.roots.toList) :
    h'.memory.Valid h'.table (o.arrived cs) a := by
  obtain ⟨t, g, hg, hb, rfl⟩ := hov.direct_root ho hw ht ha
  exact (hg.denotes hb).valid

/-- The graph is as it was, where each object goes by its new place. -/
theorem Over.sameGraph : Heap.SameGraph cs.current h h' := by
  have hform : ∀ {s t f g}, o.Stands cs s t f g →
      h.memory.form? h.table s.start = some f ∧ h'.memory.form? h'.table t.start = some g := by
    intro s t f g hs
    rw [← ht.memory, ht.table', ← ht.table, ht.memory']
    exact ⟨hs.object.form?, ((hov.direct_iff ho hw).mpr ⟨s, f, hs⟩).form?⟩
  refine ⟨ht.table', ht.settings', ?_, fun d e hd he heq ↦ ?_, fun d hd ↦ ?_, fun d hd ↦ ?_,
    fun d hd ↦ ?_, fun d hd ↦ ?_⟩
  · rw [ht.roots', List.map_map, List.map_map]
    apply List.map_congr_left
    intro a ha
    obtain ⟨s, t, f, g, -, hs, -, hcur⟩ := hov.stands_of_live ho hw ht (.root ha)
    simp only [Function.comp_apply]
    rw [← hcur]
    exact Memory.resolve_of_hop?_eq_none (Memory.hop?_of_form? (hform hs).2)
  · obtain ⟨s, t, f, g, rfl, hs, -, -⟩ := hov.stands_of_live ho hw ht hd
    obtain ⟨s', t', f', g', rfl, hs', -, -⟩ := hov.stands_of_live ho hw ht he
    rw [hov.holds.plan.current_inj ho hs.object hs'.object heq]
  · obtain ⟨s, t, f, g, rfl, hs, hb, hcur⟩ := hov.stands_of_live ho hw ht hd
    rw [← hcur, ht.memory', ht.table', ← ht.memory, ← ht.table]
    exact hov.view ho hw hs hb
  · obtain ⟨s, t, f, g, rfl, hs, hb, hcur⟩ := hov.stands_of_live ho hw ht hd
    rw [← hcur, Memory.tagBits_of_form? (hform hs).1, Memory.tagBits_of_form? (hform hs).2]
    cases hs with
    | stays => rfl
    | copied => exact Evacuation.tag_shape ..
  · obtain ⟨s, t, f, g, rfl, hs, hb, hcur⟩ := hov.stands_of_live ho hw ht hd
    rw [← hcur, Memory.sizeBits_of_form? (hform hs).1, Memory.sizeBits_of_form? (hform hs).2]
    cases hs with
    | stays => rfl
    | copied => exact Evacuation.size_shape ..
  · obtain ⟨s, t, f, g, rfl, hs, hb, hcur⟩ := hov.stands_of_live ho hw ht hd
    rw [← hcur, Memory.tailBits_of_form? (hform hs).1, Memory.tailBits_of_form? (hform hs).2,
      ← ht.compact]
    cases hs with
    | stays => exact .inl rfl
    | copied =>
      by_cases hc : f.tail = .outOfLine ∧ o.pass.compact = true
      · exact .inr ⟨hc.2, hc.1, by rw [Evacuation.shape, if_pos hc]⟩
      · exact .inl (by rw [Evacuation.shape, if_neg hc])

end Over

end Tenure.Origin
