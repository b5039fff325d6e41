import Tenure.Proofs.Pass.Steps

/-!
# Scanning objects

An object outside the source is finished if all its slots were updated, and settled if none of them
leads into the source any more. Main statements: `ends_scanObject_finished`, an object is finished
once it was scanned; `ends_scanUpTo_tiles`, a scan of the target visits the objects from its start
on and the copies made meanwhile; `ends_scanFrom`, a scan of the copies from the first one on
settles all of them.
-/

namespace Tenure.Origin

/-- No slot of the object leads into the source. -/
def Settled (o : Origin) (m : Memory) (t : Span) (g : Form) : Prop :=
  ∀ part, g.IsSlot part → o.Clean (m.read (g.cell m t.start part))

/-- Every slot of the object was updated. -/
def Finished (o : Origin) (cs : Copies) (m : Memory) (s t : Span) (f g : Form) : Prop :=
  ∀ part, g.IsSlot part →
    o.Final cs (f.cell o.memory s.start part) (m.read (g.cell m t.start part))

/-- All copies among these are settled. -/
def AllSettled (o : Origin) (m : Memory) (cs : Copies) : Prop :=
  ∀ c ∈ cs, ∀ f, o.Object c.1 f → o.Settled m c.2 (o.pass.shape f)

/-- What the parts of an object denote at the origin, in order, without those that are null. -/
def denoted (o : Origin) (s : Span) (f : Form) (parts : List Part) : List Nat :=
  parts.filterMap fun part ↦ o.memory.denoted? (f.cell o.memory s.start part)

/-- What the slots of the copy of an object refer to. -/
def found (o : Origin) (s : Span) : List Nat :=
  match o.memory.form? o.pass.table s.start with
  | none => []
  | some f => o.denoted s f (o.pass.shape f).slotParts

/-- Nothing that an object outside the source holds leads into the source at once. -/
structure Quiet (o : Origin) (m : Memory) (u : Span) : Prop where
  object : ∀ f, o.Object u f → o.Settled m u f
  husk : o.memory.hop? u.start ≠ none → o.Aimed m u.start

variable {o : Origin} {cs cs' ds : Copies} {m m' : Memory} {target target' : Region}
  {s t u : Span} {f g : Form} {a i n p q scan : Nat} {part : Part}

private theorem denoted_append {parts parts' : List Part} :
    o.denoted s f (parts ++ parts') = o.denoted s f parts ++ o.denoted s f parts' :=
  List.filterMap_append

/-- What is found in an object is what the slots of its copy denote. -/
theorem found_eq (hf : o.Object s f) : o.found s = o.denoted s f (o.pass.shape f).slotParts := by
  rw [found, hf.form?]

section Holds

variable (ho : o.Sound) (h : o.Holds cs m target)
include ho h

/-- A clean link leads to where the block is now. -/
theorem Holds.link (hs : o.Stands cs s t f g) (hg : g.tail = .outOfLine)
    (hc : o.Clean (m.read (g.cell m t.start .link))) :
    ∃ b k tb, o.Object b k ∧ k.IsBlock ∧ k.tail = .inline ∧ k.size = f.size ∧
      o.memory.read (f.cell o.memory s.start .link) = Word.ofAddr b.start ∧
      o.Stands cs b tb k k ∧ m.read (g.cell m t.start .link) = Word.ofAddr tb.start ∧
      Word.toRef? (Word.ofAddr tb.start) = some tb.start ∧
      ∀ i, f.cell o.memory s.start (.unit i) = k.cell o.memory b.start (.unit i) := by
  obtain rfl := hs.form_eq hg
  obtain ⟨b, k, hb, hkb, hki, hkz, hl, -, hcell⟩ := ho.block hs.object hg
  have hcomes : o.Comes cs (g.cell o.memory s.start .link) (g.cell m t.start .link) :=
    ⟨s, t, g, g, .link, hs, hg, g.own_link, rfl, Form.cell_eq_of_own g.own_link⟩
  have hread : m.read (g.cell m t.start .link) = Word.ofAddr (cs.current b.start) ∧
      o.pass.source.contains (cs.current b.start) = false := by
    rcases h.word _ _ hcomes with he | ⟨-, x, d, k', hx, hox, hd, hld, hr, hn⟩
    · have hrb := he.trans hl
      rw [hrb, clean_ofAddr (ho.wellFormed.toRef?_ofAddr (.of_mem hb.mem))] at hc
      have hst : o.Stands cs b b k k := .stays ((ho.not_contains_iff hb.mem).mp hc) hb
      rw [hst.current_eq ho h.plan]
      exact ⟨hrb, hc⟩
    · obtain rfl : x = b.start := ho.wellFormed.ofAddr_inj hox (.of_mem hb.mem) (hx.symm.trans hl)
      have hdb : d = b := ho.wellFormed.eq_of_start hd.mem hb.mem (hld.unique (.here hb.hop?))
      subst hdb
      exact ⟨hr, hn⟩
  obtain ⟨hr, hn⟩ := hread
  obtain ⟨tb, kb, htb, hcur⟩ := h.plan.stands ho hb hn
  have hkk : kb = k := by
    cases htb with
    | stays => rfl
    | copied => exact Evacuation.shape_of_inline hki
  subst hkk
  have hmt := h.mapped_stands ho htb
  exact ⟨b, kb, tb, hb, hkb, hki, hkz, hl, htb, by rw [hr, hcur], hmt.toRef?_ofAddr, hcell⟩

/-- A part of an object outside the source comes from the same part of the object it stands for. -/
theorem Holds.comes_cell (hs : o.Stands cs s t f g) (hp : g.Has part)
    (hl : ¬ g.Own part → o.Clean (m.read (g.cell m t.start .link))) :
    o.Comes cs (f.cell o.memory s.start part) (g.cell m t.start part) := by
  by_cases hown : g.Own part
  · exact ⟨s, t, f, g, part, hs, hp, hown, rfl, Form.cell_eq_of_own hown⟩
  · have hc := hl hown
    obtain ⟨j, rfl, hg⟩ := Form.exists_of_not_own hown
    obtain ⟨b, k, tb, hb, hkb, hki, hkz, -, htb, hr, href, hcell⟩ := h.link ho hs hg hc
    have hmt := Word.toAddr_of_toRef? href
    obtain rfl := hs.form_eq hg
    refine ⟨b, tb, k, k, .unit j, htb, ?_, fun _ _ ↦ hki, hcell j, ?_⟩
    · simp only [Form.Has] at hp ⊢
      omega
    · simp only [Form.cell, Form.unitsAt, hg, Form.index, hb.type_of_isBlock hkb, TypeInfo.fields,
        TypeInfo.tailBlock] at hr ⊢
      rw [hr, hmt]
      omega

/-- As long as its link is clean, an object outside the source has its parts where they are. -/
theorem Later.cell_eq (h' : o.Holds cs' m' target') (hl : o.Later cs m cs' m')
    (hs : o.Stands cs s t f g)
    (hc : g.tail = .outOfLine → o.Clean (m.read (g.cell m t.start .link))) :
    g.cell m' t.start part = g.cell m t.start part := by
  apply Form.cell_congr
  intro hg
  have hcomes := h.comes_cell ho hs (show g.Has .link from hg) fun hn ↦ absurd g.own_link hn
  have hs' := hs.mono hl.copies.subset
  have hcl := hl.clean hcomes (hc hg)
  obtain ⟨b, k, tb, hb, -, -, -, hq, htb, hr, -⟩ := h.link ho hs hg (hc hg)
  obtain ⟨b', k', tb', hb', -, -, -, hq', htb', hr', -⟩ := h'.link ho hs' hg hcl
  have hbb : b'.start = b.start :=
    ho.wellFormed.ofAddr_inj (.of_mem hb'.mem) (.of_mem hb.mem) (hq'.symm.trans hq)
  have hcur := (htb.mono hl.copies.subset).current_eq ho h'.plan
  rw [← hbb, htb'.current_eq ho h'.plan] at hcur
  rw [hr]
  exact hr'.trans (by rw [hcur])

/-- An object that is settled stays so. -/
theorem Later.settled (h' : o.Holds cs' m' target') (hl : o.Later cs m cs' m')
    (hs : o.Stands cs s t f g) (hset : o.Settled m t g) : o.Settled m' t g := by
  intro part hp
  have hlink : g.tail = .outOfLine → o.Clean (m.read (g.cell m t.start .link)) :=
    fun hg ↦ hset .link (.inr ⟨rfl, hg⟩)
  have hcomes := h.comes_cell ho hs hp.has fun hn ↦
    hlink (Form.exists_of_not_own hn).choose_spec.2
  rw [hl.cell_eq ho h h' hs hlink]
  exact hl.clean hcomes (hset part hp)

omit h in
/-- An object with updated slots does not lead into the source any more. -/
theorem Finished.settled (h' : o.Holds cs' m' target') (hf : o.Finished cs' m' s t f g) :
    o.Settled m' t g :=
  fun part hp ↦ (hf part hp).clean ho h'

/-- An object with updated slots has them ever after. -/
theorem Finished.later (h' : o.Holds cs' m' target') (hl : o.Later cs m cs' m')
    (hu : o.Updates cs m cs' m') (hs : o.Stands cs s t f g) (hf : o.Finished cs m s t f g) :
    o.Finished cs' m' s t f g := by
  intro part hp
  have hlink : g.tail = .outOfLine → o.Clean (m.read (g.cell m t.start .link)) :=
    fun hg ↦ hf.settled ho h .link (.inr ⟨rfl, hg⟩)
  have hcomes := h.comes_cell ho hs hp.has fun hn ↦
    hlink (Form.exists_of_not_own hn).choose_spec.2
  rw [hl.cell_eq ho h h' hs hlink]
  exact hu.final ho h' hl.copies hcomes (hf part hp)

/-- An object outside the source that is quiet stays so. -/
theorem Later.quiet (h' : o.Holds cs' m' target') (hl : o.Later cs m cs' m') (hu : u ∈ o.outside)
    (hq : o.Quiet m u) : o.Quiet m' u where
  object := fun f hf ↦ hl.settled ho h h' (.stays hu hf) (hq.object f hf)
  husk := fun hh ↦ hl.aimed hu hh (hq.husk hh)

end Holds

/-! ### Loops over slots -/

section Scan

variable {st : CopyState} (ho : o.Sound)
include ho

/-- Neighbouring slots are updated once they were visited. -/
theorem ends_visitRange {q : Nat → Nat} (h : o.Holds cs st.memory st.target)
    (hw : ∀ i < n, o.Comes cs (q i) (p + i) ∧ o.DueSlot (q i)) :
    Ends (Slots.visitRange o.pass.updateSlot p n) st
      (fun _ ↦ o.Reached cs st fun cs' s ↦
        ((∀ i < n, o.Final cs' (q i) (s.memory.read (p + i))) ∧
          o.Updates cs st.memory cs' s.memory) ∧
        o.Meets cs ((List.range n).filterMap fun i ↦ o.memory.denoted? (q i)) cs')
      o.Stuck := by
  induction n generalizing p q cs st with
  | zero =>
    exact ends_pure_iff.mpr ⟨cs, h, .refl o cs st,
      ⟨fun i hi ↦ by omega, .refl o cs st.memory⟩, .refl o cs⟩
  | succ n ih =>
    obtain ⟨hc, hq⟩ := hw 0 (by omega)
    rw [Slots.visitRange]
    apply (ends_updateSlot_final ho h hc hq).bind
    rintro _ st' ⟨cs', h', hl, ⟨hfin, hu⟩, hm⟩
    -- The first slot is final, and stays so while the others are updated.
    have hw' : ∀ i < n, o.Comes cs' (q (i + 1)) (p + 1 + i) ∧ o.DueSlot (q (i + 1)) := by
      intro i hi
      obtain ⟨hc, hq⟩ := hw (i + 1) (by omega)
      exact ⟨by rw [Nat.add_assoc, Nat.add_comm 1 i]; exact hc.mono hl.copies.subset, hq⟩
    refine (ih h' hw').imp fun _ st'' hr ↦ hr.later hl fun cs'' h'' hl' ⟨⟨hg, hu'⟩, hm'⟩ ↦
      ⟨⟨fun i hi ↦ ?_, hu.trans ho hu' h'' hl.copies hl'.copies⟩, ?_⟩
    · cases i with
      | zero => exact hu'.final ho h'' hl'.copies (hc.mono hl.copies.subset) hfin
      | succ i =>
        have hi := hg i (by omega)
        rwa [Nat.add_assoc, Nat.add_comm 1 i] at hi
    · have hsplit : ((List.range (n + 1)).filterMap fun i ↦ o.memory.denoted? (q i)) =
          (o.memory.denoted? (q 0)).toList ++
            (List.range n).filterMap fun i ↦ o.memory.denoted? (q (i + 1)) := by
        rw [List.range_succ_eq_map, List.filterMap_cons, List.filterMap_map]
        cases o.memory.denoted? (q 0) <;> rfl
      rw [hsplit]
      exact hm.trans hm'

private theorem ends_visitUnits (h : o.Holds cs st.memory st.target) (hs : o.Stands cs s t f g)
    (hdue : ∀ part, g.IsSlot part → o.DueSlot (f.cell o.memory s.start part))
    (hk : g.type.units = .refs)
    (hlink : g.tail = .outOfLine → o.Clean (st.memory.read (g.cell st.memory t.start .link))) :
    Ends (Slots.visitRange o.pass.updateSlot (g.unitsAt st.memory t.start) g.size) st
      (fun _ ↦ o.Reached cs st fun cs' s' ↦
        ((∀ i < g.size, o.Final cs' (f.cell o.memory s.start (.unit i))
            (s'.memory.read (g.cell s'.memory t.start (.unit i)))) ∧
          o.Updates cs st.memory cs' s'.memory) ∧
        o.Meets cs (o.denoted s f ((List.range g.size).map .unit)) cs')
      o.Stuck := by
  have hunits : ∀ i < g.size, o.Comes cs (f.cell o.memory s.start (.unit i))
      (g.unitsAt st.memory t.start + i) ∧ o.DueSlot (f.cell o.memory s.start (.unit i)) :=
    fun i hi ↦ ⟨h.comes_cell ho hs (show g.Has (.unit i) from hi) fun hn ↦
      hlink (Form.exists_of_not_own hn).choose_spec.2, hdue _ (.inl ⟨hi, hk⟩)⟩
  refine (ends_visitRange ho h hunits).imp fun _ st' ⟨cs', h', hl, ⟨hc, hu⟩, hm⟩ ↦
    ⟨cs', h', hl, ⟨fun i hi ↦ ?_, hu⟩, ?_⟩
  · rw [hl.cell_eq ho h h' hs hlink]
    exact hc i hi
  · rw [denoted, List.filterMap_map]
    exact hm

private theorem ends_visitTail (h : o.Holds cs st.memory st.target) (hs : o.Stands cs s t f g)
    (hdue : ∀ part, g.IsSlot part → o.DueSlot (f.cell o.memory s.start part)) :
    Ends (match (g.slots t.start).tail with
      | .none => pure ()
      | .units first count => Slots.visitRange o.pass.updateSlot first count
      | .block link count traced => do
        o.pass.updateSlot link
        if traced then
          match Word.toRef? (← CopyM.load link) with
          | none => pure ()
          | some block => Slots.visitRange o.pass.updateSlot (block + 1) count) st
      (fun _ ↦ o.Reached cs st fun cs' s' ↦
        ((∀ part ∈ g.tailParts, o.Final cs' (f.cell o.memory s.start part)
            (s'.memory.read (g.cell s'.memory t.start part))) ∧
          o.Updates cs st.memory cs' s'.memory) ∧
        o.Meets cs (o.denoted s f g.tailParts) cs')
      o.Stuck := by
  cases hg : g.tail with
  | inline =>
    cases hk : g.type.units with
    | words =>
      simp only [Form.slots, Form.tailParts, hg, hk, reduceCtorEq, if_false]
      exact ends_pure_iff.mpr ⟨cs, h, .refl o cs st,
        ⟨by simp, .refl o cs st.memory⟩, .refl o cs⟩
    | refs =>
      have hinline : g.tail ≠ .outOfLine := by
        simp only [hg, ne_eq, reduceCtorEq, not_false_eq_true]
      have hu := ends_visitUnits ho h hs hdue hk fun ht ↦ absurd ht hinline
      simp only [Form.unitsAt, hg] at hu
      simp only [Form.slots, Form.tailParts, hg, hk, if_true]
      refine hu.imp fun _ _ hr ↦ hr.later (.refl o cs st) ?_
      rintro _ _ _ ⟨⟨hc, hup⟩, hm⟩
      refine ⟨⟨fun part hp ↦ ?_, hup⟩, hm⟩
      obtain ⟨i, hi, rfl⟩ := List.mem_map.mp hp
      exact hc i (List.mem_range.mp hi)
  | outOfLine =>
    have hlink := h.comes_cell ho hs (show g.Has .link from hg) fun hn ↦ absurd g.own_link hn
    have hfirst : o.denoted s f [.link] =
        (o.memory.denoted? (f.cell o.memory s.start .link)).toList := by
      rw [denoted, List.filterMap_cons]
      cases o.memory.denoted? (f.cell o.memory s.start .link) <;> rfl
    simp only [Form.slots, Form.tailParts, hg]
    -- The link comes first, and once it is updated it leads to where the units are now.
    apply (ends_updateSlot_final ho h hlink (hdue _ (.inr ⟨rfl, hg⟩))).bind
    rintro _ st₁ ⟨cs₁, h₁, hl₁, ⟨hc₁, hu₁⟩, hm₁⟩
    have hs₁ := hs.mono hl₁.copies.subset
    rw [← hfirst] at hm₁
    cases hk : g.type.units with
    | words =>
      simp only [reduceCtorEq, decide_false, Bool.false_eq_true, if_false]
      refine ends_pure_iff.mpr ⟨cs₁, h₁, hl₁, ⟨fun part hp ↦ ?_, hu₁⟩, hm₁⟩
      obtain rfl := List.mem_singleton.mp hp
      exact hc₁
    | refs =>
      have hcl := hc₁.clean ho h₁
      obtain ⟨b, k, tb, -, -, -, -, -, -, hr, href, -⟩ := h₁.link ho hs₁ hg hcl
      have hload : CopyM.load (t.start + 1 + g.type.fields) st₁ =
          .ok (Word.ofAddr tb.start) st₁ := by
        simp only [CopyM.load, ← hr]
        rfl
      have hu := ends_visitUnits ho h₁ hs₁ hdue hk fun _ ↦ hcl
      simp only [Form.cell] at hr
      simp only [Form.unitsAt, hg, hr, Word.toAddr_of_toRef? href] at hu
      simp only [decide_true, if_true]
      rw [ends_bind_iff, ends_iff_of_eq_ok hload, href]
      refine hu.imp fun _ _ hr ↦ hr.later hl₁ ?_
      rintro _ h₂ hl₂ ⟨⟨hc₂, hu₂⟩, hm₂⟩
      refine ⟨⟨fun part hp ↦ ?_, hu₁.trans ho hu₂ h₂ hl₁.copies hl₂.copies⟩, ?_⟩
      · rcases List.mem_append.mp hp with hp | hp
        · obtain rfl := List.mem_singleton.mp hp
          exact hu₂.final ho h₂ hl₂.copies (hlink.mono hl₁.copies.subset) hc₁
        · obtain ⟨i, hi, rfl⟩ := List.mem_map.mp hp
          exact hc₂ i (List.mem_range.mp hi)
      · rw [denoted_append]
        exact hm₁.trans hm₂

/-- Every slot of an object is updated once it was scanned, and what its slots refer to was met in
order. -/
theorem ends_scanObject_finished (h : o.Holds cs st.memory st.target) (hs : o.Stands cs s t f g)
    (hdue : ∀ part, g.IsSlot part → o.DueSlot (f.cell o.memory s.start part)) :
    Ends (o.pass.scanObject t.start) st
      (fun _ ↦ o.Reached cs st fun cs' s' ↦ (o.Finished cs' s'.memory s t f g ∧
        o.Updates cs st.memory cs' s'.memory) ∧ o.Meets cs (o.denoted s f g.slotParts) cs')
      o.Stuck := by
  have hslots : CopyM.inspect (fun m ↦ m.slots o.pass.table t.start) st =
      .ok (g.slots t.start) st := by
    simp only [CopyM.inspect, Memory.slots_of_form? (h.form? hs), attempt]
  have hptrs : ∀ i < g.type.ptrs, o.Comes cs (f.cell o.memory s.start (.ptr i))
      (t.start + 1 + g.type.prims + i) ∧ o.DueSlot (f.cell o.memory s.start (.ptr i)) :=
    fun i hi ↦ ⟨h.comes_cell ho hs (show g.Has (.ptr i) from hi)
      fun hn ↦ absurd (g.own_ptr i) hn, hdue _ (.inl hi)⟩
  rw [Evacuation.scanObject, ends_bind_iff, ends_iff_of_eq_ok hslots, Slots.visit]
  apply (ends_visitRange ho h hptrs).bind
  rintro _ st₁ ⟨cs₁, h₁, hl₁, ⟨hc₁, hu₁⟩, hm₁⟩
  have hs₁ := hs.mono hl₁.copies.subset
  refine (ends_visitTail ho h₁ hs₁ hdue).imp fun _ st₂ hr ↦ hr.later hl₁ ?_
  rintro cs₂ h₂ hl₂ ⟨⟨htail, hu₂⟩, hm₂⟩
  refine ⟨⟨fun part hp ↦ ?_, hu₁.trans ho hu₂ h₂ hl₁.copies hl₂.copies⟩, ?_⟩
  · rcases List.mem_append.mp (Form.mem_slotParts.mpr hp) with hp | hp
    · obtain ⟨i, hi, rfl⟩ := List.mem_map.mp hp
      rw [List.mem_range] at hi
      exact hu₂.final ho h₂ hl₂.copies ((hptrs i hi).1.mono hl₁.copies.subset) (hc₁ i hi)
    · exact htail part hp
  · rw [Form.slotParts, denoted_append]
    refine Meets.trans ?_ hm₂
    rw [denoted, List.filterMap_map]
    exact hm₁

/-- An object is settled once it was scanned, and what its slots refer to was met in order. -/
theorem ends_scanObject (h : o.Holds cs st.memory st.target) (hs : o.Stands cs s t f g)
    (hdue : ∀ part, g.IsSlot part → o.DueSlot (f.cell o.memory s.start part)) :
    Ends (o.pass.scanObject t.start) st
      (fun _ ↦ o.Reached cs st fun cs' s' ↦ o.Settled s'.memory t g ∧
        o.Meets cs (o.denoted s f g.slotParts) cs') o.Stuck :=
  (ends_scanObject_finished ho h hs hdue).imp fun _ _ hr ↦
    hr.later (.refl o cs st) fun _ h' _ hg ↦ ⟨hg.1.1.settled ho h', hg.2⟩

/-! ### The scan of the target -/

omit ho in
/-- The copies made after a state fill the target from its cursor on. -/
theorem Holds.tiles_new {ds : Copies} (h : o.Holds cs m target)
    (h' : o.Holds (cs ++ ds) m' target') :
    Tiles (ds.map Prod.snd) (o.target.start + target.cursor) (o.target.start + target'.cursor) := by
  have ht := h'.plan.tiles
  rw [List.map_append, tiles_append] at ht
  obtain ⟨b, hc, hd⟩ := ht
  rwa [hc.unique h.plan.tiles, h.start, h'.start] at hd

omit ho in
/-- A scan visits the objects from its start on, and then the copies made meanwhile, in order. An
entry is an object together with what stands for it. Each step begins where the spans of the entries
before it end, and its own ends at the cursor or before. -/
theorem ends_scanUpTo_tiles {fuel : Nat} {bad : Fault → CopyState → Prop} (entries : Copies)
    (entry : Copies → Span × Span → Prop) (inv : Copies → Copies → CopyState → Prop)
    (hcopy : ∀ cs c, o.Selection cs → c ∈ cs → entry cs c)
    (hmono : ∀ cs cs' c, cs <+: cs' → entry cs c → entry cs' c)
    (hstep : ∀ done cs c st, o.Holds cs st.memory st.target → entry cs c → inv done cs st →
      Tiles (done.map Prod.snd) (o.target.start + scan) c.2.start →
      c.2.stop ≤ o.target.start + st.target.cursor →
      Ends (o.pass.scanObject c.2.start) st (fun _ st' ↦
        st'.memory.extent o.pass.table o.pass.padding c.2.start = .ok c.2.words ∧
        o.Reached cs st (inv (done ++ [c])) st') bad)
    (h : o.Holds cs st.memory st.target) (hi : inv [] cs st) (hentries : ∀ c ∈ entries, entry cs c)
    (htiles : Tiles (entries.map Prod.snd) (o.target.start + scan)
      (o.target.start + st.target.cursor))
    (hfuel : st.target.capacity ≤ fuel + scan) :
    Ends (o.pass.scanUpTo fuel scan) st (fun _ ↦ o.Reached cs st fun cs' s ↦
      ∃ ds, cs' = cs ++ ds ∧ inv (entries ++ ds) cs' s) bad := by
  suffices hs : ∀ {fuel k done rest cs st}, o.Holds cs st.memory st.target → inv done cs st →
      (∀ c ∈ rest, entry cs c) →
      Tiles (done.map Prod.snd) (o.target.start + scan) (o.target.start + k) →
      Tiles (rest.map Prod.snd) (o.target.start + k) (o.target.start + st.target.cursor) →
      st.target.capacity ≤ fuel + k →
      Ends (o.pass.scanUpTo fuel k) st (fun _ ↦ o.Reached cs st fun cs' s ↦
        ∃ ds, cs' = cs ++ ds ∧ inv (done ++ rest ++ ds) cs' s) bad from
    hs h hi hentries rfl htiles hfuel
  have hover : ∀ {done : Copies} {cs st}, o.Holds cs st.memory st.target → inv done cs st →
      o.Reached cs st (fun cs' s ↦ ∃ ds, cs' = cs ++ ds ∧ inv (done ++ [] ++ ds) cs' s) st := by
    intro done cs st h hi
    refine ⟨cs, h, .refl o cs st, [], (List.append_nil cs).symm, ?_⟩
    rwa [List.append_nil, List.append_nil]
  intro fuel
  -- The entries that are done end where those that are left begin, at word `k`.
  induction fuel with
  | zero =>
    -- There is no fuel left only when the scan has met the end of the target.
    intro k done rest cs st h hi _ _ ht hfuel
    have hle := st.target.cursor_le
    cases rest with
    | nil => exact ends_pure_iff.mpr (hover h hi)
    | cons c rest =>
      obtain ⟨hat, hw, ht⟩ := ht
      have := ht.le
      simp only [Span.stop] at this
      omega
  | succ fuel ih =>
    intro k done rest cs st h hi hrest hdone ht hfuel
    cases rest with
    | nil =>
      have hse : o.target.start + k = o.target.start + st.target.cursor := ht
      have hlt : ¬ k < st.target.cursor := by omega
      unfold Ends
      simp only [Evacuation.scanUpTo, if_neg hlt]
      exact hover h hi
    | cons c rest =>
      obtain ⟨hat, hw, ht⟩ := ht
      have hle := ht.le
      have hobj : st.target.start + k = c.2.start := by rw [h.start, hat]
      rw [← hat] at hdone
      have hlt : k < st.target.cursor := by
        simp only [Span.stop] at hle
        omega
      unfold Ends
      simp only [Evacuation.scanUpTo, if_pos hlt, hobj]
      apply (hstep done cs c st h (hrest c List.mem_cons_self) hi hdone hle).bind
      rintro _ st' ⟨hext, cs', h', hl, hi'⟩
      obtain ⟨ds, rfl⟩ := hl.copies
      have hwords : CopyM.inspect (fun m ↦ m.extent o.pass.table o.pass.padding c.2.start) st' =
          .ok c.2.words st' := by
        simp only [CopyM.inspect, hext, attempt]
      have hcap : st'.target.capacity = st.target.capacity := by rw [h'.capacity, h.capacity]
      have hrest' : ∀ c' ∈ rest ++ ds, entry (cs ++ ds) c' := by
        intro c' hc'
        rcases List.mem_append.mp hc' with hc' | hc'
        · exact hmono cs _ c' hl.copies (hrest c' (List.mem_cons_of_mem _ hc'))
        · exact hcopy _ c' h'.plan.toSelection (List.mem_append_right _ hc')
      have hdone' : Tiles ((done ++ [c]).map Prod.snd) (o.target.start + scan)
          (o.target.start + (k + c.2.words)) := by
        rw [List.map_append, tiles_append]
        refine ⟨_, hdone, tiles_singleton.mpr ⟨rfl, hw, ?_⟩⟩
        rw [Span.stop, hat, Nat.add_assoc]
      have ht' : Tiles ((rest ++ ds).map Prod.snd) (o.target.start + (k + c.2.words))
          (o.target.start + st'.target.cursor) := by
        rw [List.map_append, tiles_append, ← Nat.add_assoc, ← hat]
        exact ⟨_, ht, h.tiles_new h'⟩
      rw [ends_bind_iff, ends_iff_of_eq_ok hwords]
      refine (ih h' hi' hrest' hdone' ht' (by omega)).imp fun _ _ hr ↦ hr.later hl ?_
      rintro _ _ _ ⟨ds', rfl, hi''⟩
      refine ⟨ds ++ ds', List.append_assoc .., ?_⟩
      simpa only [List.append_assoc, List.singleton_append, List.cons_append, List.nil_append]
        using hi''

omit ho in
/-- A scan visits the objects from its start on, and then the copies made meanwhile, in order. -/
theorem ends_scanUpTo {fuel : Nat} {bad : Fault → CopyState → Prop} (entries : Copies)
    (entry : Copies → Span × Span → Prop) (inv : Copies → Copies → CopyState → Prop)
    (hcopy : ∀ cs c, o.Selection cs → c ∈ cs → entry cs c)
    (hmono : ∀ cs cs' c, cs <+: cs' → entry cs c → entry cs' c)
    (hstep : ∀ done cs c st, o.Holds cs st.memory st.target → entry cs c → inv done cs st →
      Ends (o.pass.scanObject c.2.start) st (fun _ st' ↦
        st'.memory.extent o.pass.table o.pass.padding c.2.start = .ok c.2.words ∧
        o.Reached cs st (inv (done ++ [c])) st') bad)
    (h : o.Holds cs st.memory st.target) (hi : inv [] cs st) (hentries : ∀ c ∈ entries, entry cs c)
    (htiles : Tiles (entries.map Prod.snd) (o.target.start + scan)
      (o.target.start + st.target.cursor))
    (hfuel : st.target.capacity ≤ fuel + scan) :
    Ends (o.pass.scanUpTo fuel scan) st (fun _ ↦ o.Reached cs st fun cs' s ↦
      ∃ ds, cs' = cs ++ ds ∧ inv (entries ++ ds) cs' s) bad :=
  ends_scanUpTo_tiles entries entry inv hcopy hmono
    (fun done cs c st hh hc hi _ _ ↦ hstep done cs c st hh hc hi) h hi hentries htiles hfuel

/-- A scan of the copies from the first one on settles all of them, and meets what they refer to in
order. -/
theorem ends_scanFrom (h : o.Holds cs st.memory st.target) :
    Ends (o.pass.scanFrom o.target.cursor) st
      (fun _ ↦ o.Reached cs st fun cs' s ↦ o.AllSettled s.memory cs' ∧
        o.Meets cs (cs'.flatMap fun c ↦ o.found c.1) cs') o.Stuck := by
  have htiles := h.plan.tiles
  rw [h.start] at htiles
  refine (ends_scanUpTo cs (fun cs c ↦ c ∈ cs)
    (fun done cs' s ↦ (∀ c ∈ done, c ∈ cs') ∧ o.AllSettled s.memory done ∧
      o.Meets cs (done.flatMap fun c ↦ o.found c.1) cs')
    (fun _ _ _ hc ↦ hc) (fun _ _ _ hcs hc ↦ hcs.subset hc)
    (fun done cs' c st hh hc ⟨hdone, hset, hmeets⟩ ↦ ?_) h
    ⟨by simp, by simp [AllSettled], .refl o cs⟩ (fun _ hc ↦ hc) htiles (by omega)).imp
    fun _ _ hr ↦ hr.later (.refl o cs st) ?_
  · obtain ⟨-, f, hf, hw⟩ := hh.plan.object c hc
    have hs : o.Stands cs' c.1 c.2 f (o.pass.shape f) := .copied hc hf
    refine (ends_scanObject ho hh hs fun _ ↦ hs.dueSlot (hh.plan.due c hc)).imp
      fun _ st' ⟨cs'', h', hl, hset', hm⟩ ↦ ⟨?_, cs'', h', hl, fun c' hc' ↦ ?_,
        fun c' hc' f' hf' ↦ ?_, ?_⟩
    · rw [Memory.extent_of_form? _ (h'.form? (hs.mono hl.copies.subset)), hw]
    · rcases List.mem_append.mp hc' with hc' | hc'
      · exact hl.copies.subset (hdone c' hc')
      · exact List.mem_singleton.mp hc' ▸ hl.copies.subset hc
    · rcases List.mem_append.mp hc' with hc' | hc'
      · exact hl.settled ho hh h' (.copied (hdone c' hc') hf') (hset c' hc' f' hf')
      · obtain rfl := List.mem_singleton.mp hc'
        obtain rfl := hf.unique hf'
        exact hset'
    · rw [List.flatMap_append, List.flatMap_singleton]
      rw [← found_eq hf] at hm
      exact hmeets.trans hm
  · rintro cs' s - ⟨ds, rfl, -, hset, hmeets⟩
    exact ⟨hset, hmeets⟩

end Scan

end Tenure.Origin
