import Tenure.Proofs.Pass.Scan

/-!
# What a pass leaves alone

A step of a pass writes to the source, to the unused part of the target, and to the slots that it
visits. The frame of a step names the words that it may change besides the first two. Main
statement: `ends_scanObject_frame`, a scan changes slots of the object scanned only, and these are
slots at the origin already.
-/

namespace Tenure

/-- Copying changes its destination only. -/
theorem Memory.read_copy_of_ne {m : Memory} {src dst n p : Nat} (h : ∀ i < n, dst + i ≠ p) :
    (m.copy src dst n).read p = m.read p := by
  induction n generalizing m src dst with
  | zero => rfl
  | succ n ih =>
    rw [copy, ih fun i hi ↦ by have := h (i + 1) (by omega); omega]
    exact read_write_of_ne _ (h 0 (by omega))

/-- Copying an object changes the words of the copy and the header of the object only. -/
theorem Evacuation.read_moved_of_ne {e : Evacuation} {f : Form} {m : Memory} {object copy p : Nat}
    (ho : object ≠ p) (hc : ∀ i < (e.shape f).words e.padding, copy + i ≠ p) :
    (e.moved f object copy m).read p = m.read p := by
  rw [moved, Memory.redirect, Memory.writeHeader, Memory.read_write_of_ne _ ho]
  have hw := (e.shape f).used_le_words e.padding
  split
  · next h =>
    rw [shape, if_pos h] at hw hc
    simp only [Form.used] at hw
    have hcp : copy ≠ p := hc 0 (by omega)
    rw [Memory.writeHeader, Memory.read_write_of_ne _ hcp,
      Memory.read_copy_of_ne fun i hi ↦ by have := hc (1 + f.type.fields + i) (by omega); omega,
      Memory.read_copy_of_ne fun i hi ↦ hc i (by omega)]
  · exact Memory.read_copy_of_ne hc

/-- The target has grown, and besides the words that it has grown by and the header of `object`
nothing has changed. -/
structure CopyState.Grew (st : CopyState) (object : Nat) (st' : CopyState) : Prop where
  start : st'.target.start = st.target.start
  capacity : st'.target.capacity = st.target.capacity
  cursor : st.target.cursor ≤ st'.target.cursor
  same : ∀ p, p ≠ object →
    (∀ i, st.target.cursor ≤ i → i < st'.target.cursor → st.target.start + i ≠ p) →
    st'.memory.read p = st.memory.read p

/-- Evacuation changes the header of the object and the words of its copy only, and nothing at all
if it fails. -/
theorem Evacuation.ends_evacuate_grew (e : Evacuation) (a : Nat) (st : CopyState) :
    Ends (e.evacuate a) st (fun _ ↦ st.Grew (st.memory.resolve a)) (fun _ st' ↦ st' = st) := by
  cases hs : e.source.contains (st.memory.resolve a) with
  | false =>
    exact (ends_iff_of_eq_ok (evacuate_of_not_contains hs)).mpr
      ⟨rfl, rfl, Nat.le_refl _, fun _ _ _ ↦ rfl⟩
  | true =>
    unfold Ends evacuate
    simp only [hs, if_true]
    generalize (st.memory.header (st.memory.resolve a)).tagBits = tag
    generalize (st.memory.header (st.memory.resolve a)).sizeBits = size
    generalize (st.memory.header (st.memory.resolve a)).tailBits = tail
    cases ht : e.table.lookup tag with
    | error fault => simp only [copyObject, ht, attempt, bind, EStateM.bind]
    | ok info =>
      let f : Form := ⟨tag, size, tail, info⟩
      rw [@copyObject_eq e f (st.memory.resolve a) st ht]
      cases hbump : st.target.bump ((e.shape f).words e.padding) with
      | none => rfl
      | some c =>
        obtain ⟨copy, target⟩ := c
        obtain ⟨-, ha, hstart, hcap, hcur⟩ := Region.bump_eq_some_iff.mp hbump
        refine ⟨hstart, hcap, hcur ▸ Nat.le_add_right _ _, fun p hp hne ↦ ?_⟩
        refine read_moved_of_ne hp.symm fun i hi ↦ ?_
        rw [ha, Nat.add_assoc]
        exact hne _ (Nat.le_add_right _ _) (by simp only [hcur]; omega)

namespace Origin

variable {o : Origin} {cs cs' : Copies} {m m' : Memory} {target : Region} {st st' st'' : CopyState}
  {s t u : Span} {f g : Form} {a n p q : Nat} {part : Part} {W W' : Nat → Prop}

/-- A state whose target is that of the origin, with no fewer words in use. -/
structure Beyond (o : Origin) (target : Region) : Prop where
  start : target.start = o.target.start
  capacity : target.capacity = o.target.capacity
  cursor : o.target.cursor ≤ target.cursor

/-- In the middle of a pass, the target is that of the origin, and not emptier. -/
theorem Holds.beyond (h : o.Holds cs m target) : o.Beyond target where
  start := h.start
  capacity := h.capacity
  cursor := by
    have hle := h.plan.tiles.le
    have hstart := h.start
    omega

/-- The target has only grown, and of the words that lie aside only those in `W` may have
changed. -/
structure Frame (o : Origin) (W : Nat → Prop) (st st' : CopyState) : Prop where
  beyond : o.Beyond st'.target
  same : ∀ p, o.Aside p → ¬ W p → st'.memory.read p = st.memory.read p

/-- Nothing changes from a state to itself. -/
theorem Frame.refl (h : o.Beyond st.target) : o.Frame W st st := ⟨h, fun _ _ _ ↦ rfl⟩

/-- What two stretches of a pass leave alone, they leave alone together. -/
theorem Frame.trans (h : o.Frame W st st') (h' : o.Frame W st' st'') : o.Frame W st st'' :=
  ⟨h'.beyond, fun p ha hw ↦ (h'.same p ha hw).trans (h.same p ha hw)⟩

/-- A frame may allow for more changes. -/
theorem Frame.mono (h : o.Frame W st st') (hw : ∀ p, o.Aside p → W p → W' p) :
    o.Frame W' st st' :=
  ⟨h.beyond, fun p ha hn ↦ h.same p ha fun hp ↦ hn (hw p ha hp)⟩

/-- A slot of an object at the origin. -/
def SlotOf (o : Origin) (s : Span) (p : Nat) : Prop :=
  ∃ f part, o.Object s f ∧ f.IsSlot part ∧ p = f.cell o.memory s.start part

/-! ### Single steps -/

/-- A word that lies aside is neither in the unused part of the target nor in the source. -/
theorem Aside.ne_vacant (ha : o.Aside p) (hb : o.Beyond target) {i : Nat}
    (hi : target.cursor ≤ i) (hi' : i < target.capacity) : target.start + i ≠ p := by
  rintro rfl
  have hstart := hb.start
  have hcap := hb.capacity
  have hcur := hb.cursor
  have := ha.2 (Region.mem_iff.mpr ⟨by omega, by omega⟩)
  omega

private theorem Aside.ne_source (ha : o.Aside p) (hs : o.pass.source.contains a = true) :
    a ≠ p := by
  rintro rfl
  rw [ha.1] at hs
  cases hs

/-- Evacuating an object changes no word that lies aside. -/
theorem ends_evacuate_frame (hb : o.Beyond st.target) (a : Nat) :
    Ends (o.pass.evacuate a) st (fun _ ↦ o.Frame W st) (fun _ _ ↦ True) := by
  cases hs : o.pass.source.contains (st.memory.resolve a) with
  | false => exact (ends_iff_of_eq_ok (Evacuation.evacuate_of_not_contains hs)).mpr (.refl hb)
  | true =>
    refine (o.pass.ends_evacuate_grew a st).mono (fun _ st' hg ↦ ?_) fun _ _ _ ↦ trivial
    have hle := st'.target.cursor_le
    refine ⟨⟨hg.start.trans hb.start, hg.capacity.trans hb.capacity, hb.cursor.trans hg.cursor⟩,
      fun p hp _ ↦ hg.same p (hp.ne_source hs).symm fun i hi hi' ↦ hp.ne_vacant hb hi ?_⟩
    rw [← hg.capacity]
    omega

/-- Updating a slot changes no other word that lies aside. -/
theorem ends_updateSlot_frame (hb : o.Beyond st.target) (p : Nat) :
    Ends (o.pass.updateSlot p) st (fun _ ↦ o.Frame (· = p) st) (fun _ _ ↦ True) := by
  have hload : CopyM.load p st = .ok (st.memory.read p) st := rfl
  rw [Evacuation.updateSlot, ends_bind_iff, ends_iff_of_eq_ok hload]
  cases Word.toRef? (st.memory.read p) with
  | none => exact ends_pure_iff.mpr (.refl hb)
  | some a =>
    exact (ends_evacuate_frame hb a).bind fun r st' h ↦
      h.trans ⟨h.beyond, fun x _ hx ↦ Memory.read_write_of_ne _ (Ne.symm hx)⟩

/-- Updating neighbouring slots changes no other words that lie aside. -/
theorem ends_visitRange_frame (hb : o.Beyond st.target) (p n : Nat) :
    Ends (Slots.visitRange o.pass.updateSlot p n) st
      (fun _ ↦ o.Frame (fun x ↦ ∃ i < n, x = p + i) st) (fun _ _ ↦ True) := by
  induction n generalizing p st with
  | zero => exact ends_pure_iff.mpr (.refl hb)
  | succ n ih =>
    rw [Slots.visitRange]
    refine (ends_updateSlot_frame hb p).bind fun _ st' h ↦ (ih h.beyond (p + 1)).imp
      fun _ st'' h' ↦ (h.mono fun x _ hx ↦ ⟨0, by omega, hx⟩).trans (h'.mono ?_)
    rintro x - ⟨i, hi, rfl⟩
    exact ⟨i + 1, by omega, by omega⟩

/-! ### The scan of an object -/

/-- A word that lies aside comes from itself only. -/
theorem Comes.eq_of_aside (hp : o.Plan cs a) (hc : o.Comes cs q p) (ha : o.Aside p) : p = q := by
  obtain ⟨s, t, f, g, part, hs, hpart, hown, rfl, rfl⟩ := hc
  cases hs with
  | stays => rw [Form.cell_eq_of_own hown]
  | copied hm hf =>
    have hlt := (Form.index_lt_used hpart hown).2
    have hu := (o.pass.shape f).used_le_words o.pass.padding
    obtain ⟨-, f', hf', hw⟩ := hp.object _ hm
    obtain rfl := hf.unique hf'
    have hi : (o.pass.shape f).index part < t.words := by
      rw [show t.words = _ from hw]
      omega
    obtain ⟨j, hj, hj', -, he⟩ := hp.exists_vacant hm hi
    have he : t.start + (o.pass.shape f).index part = o.target.start + j := he
    rw [he] at ha
    have := ha.2 (Region.mem_iff.mpr ⟨by omega, by omega⟩)
    omega

/-- Slots that come from slots of an object are slots of it at the origin, if they lie aside. -/
theorem Frame.slots {parts : Nat → Part} (h : o.Frame (fun x ↦ ∃ i < n, x = p + i) st st')
    (hp : o.Plan cs a) (hf : o.Object s f) (hpart : ∀ i < n, f.IsSlot (parts i))
    (hc : ∀ i < n, o.Comes cs (f.cell o.memory s.start (parts i)) (p + i)) :
    o.Frame (o.SlotOf s) st st' := by
  refine h.mono ?_
  rintro x hx ⟨i, hi, rfl⟩
  exact ⟨f, parts i, hf, hpart i hi, (hc i hi).eq_of_aside hp hx⟩

section Scan

variable (ho : o.Sound) (h : o.Holds cs st.memory st.target) (hs : o.Stands cs s t f g)
include ho h hs

private theorem ends_visitUnits_frame (hk : g.type.units = .refs)
    (hlink : g.tail = .outOfLine → o.Clean (st.memory.read (g.cell st.memory t.start .link))) :
    Ends (Slots.visitRange o.pass.updateSlot (g.unitsAt st.memory t.start) g.size) st
      (fun _ ↦ o.Frame (o.SlotOf s) st) (fun _ _ ↦ True) := by
  have hslot : ∀ i < g.size, g.IsSlot (.unit i) := fun i hi ↦ .inl ⟨hi, hk⟩
  refine (ends_visitRange_frame h.beyond _ _).imp fun _ _ hf ↦
    hf.slots h.plan hs.object (fun i hi ↦ hs.isSlot (hslot i hi)) fun i hi ↦ ?_
  exact h.comes_cell ho hs (hslot i hi).has fun hn ↦ hlink (Form.exists_of_not_own hn).choose_spec.2

private theorem ends_visitTail_frame
    (hdue : ∀ part, g.IsSlot part → o.DueSlot (f.cell o.memory s.start part)) :
    Ends (match (g.slots t.start).tail with
      | .none => pure ()
      | .units first count => Slots.visitRange o.pass.updateSlot first count
      | .block link count traced => do
        o.pass.updateSlot link
        if traced then
          match Word.toRef? (← CopyM.load link) with
          | none => pure ()
          | some block => Slots.visitRange o.pass.updateSlot (block + 1) count) st
      (fun _ ↦ o.Frame (o.SlotOf s) st) (fun _ _ ↦ True) := by
  cases hg : g.tail with
  | inline =>
    cases hk : g.type.units with
    | words =>
      simp only [Form.slots, hg, hk, reduceCtorEq, if_false]
      exact ends_pure_iff.mpr (.refl h.beyond)
    | refs =>
      have hu := ends_visitUnits_frame ho h hs hk fun ht ↦ by rw [hg] at ht; cases ht
      simp only [Form.unitsAt, hg] at hu
      simpa only [Form.slots, hg, hk, if_true] using hu
  | outOfLine =>
    have hslot : g.IsSlot .link := .inr ⟨rfl, hg⟩
    have hcomes := h.comes_cell ho hs hslot.has fun hn ↦ absurd g.own_link hn
    simp only [Form.slots, hg]
    refine ((ends_updateSlot ho h hcomes (hdue _ hslot)).and
      (ends_updateSlot_frame h.beyond _)).mono (fun _ _ h ↦ h) (fun _ _ _ ↦ trivial) |>.bind ?_
    rintro _ st₁ ⟨⟨cs₁, h₁, hl₁, hc₁, -⟩, hf₁⟩
    have hs₁ := hs.mono hl₁.copies.subset
    have hf₁ : o.Frame (o.SlotOf s) st st₁ := hf₁.mono fun x hx he ↦
      ⟨f, .link, hs.object, hs.isSlot hslot, (he ▸ hcomes).eq_of_aside h.plan hx⟩
    cases hk : g.type.units with
    | words =>
      simp only [reduceCtorEq, decide_false, Bool.false_eq_true, if_false]
      exact ends_pure_iff.mpr hf₁
    | refs =>
      obtain ⟨b, k, tb, -, -, -, -, -, -, hr, href, -⟩ := h₁.link ho hs₁ hg hc₁
      have hload : CopyM.load (t.start + 1 + g.type.fields) st₁ =
          .ok (Word.ofAddr tb.start) st₁ := by
        simp only [CopyM.load, ← hr]
        rfl
      have hu := ends_visitUnits_frame ho h₁ hs₁ hk fun _ ↦ hc₁
      simp only [Form.cell] at hr
      simp only [Form.unitsAt, hg, hr, Word.toAddr_of_toRef? href] at hu
      simp only [decide_true, if_true]
      rw [ends_bind_iff, ends_iff_of_eq_ok hload, href]
      exact hu.imp fun _ _ hf ↦ hf₁.trans hf

/-- A scan changes slots of the object scanned only, and these are slots at the origin. -/
theorem ends_scanObject_frame
    (hdue : ∀ part, g.IsSlot part → o.DueSlot (f.cell o.memory s.start part)) :
    Ends (o.pass.scanObject t.start) st (fun _ ↦ o.Frame (o.SlotOf s) st) (fun _ _ ↦ True) := by
  have hslots : CopyM.inspect (fun m ↦ m.slots o.pass.table t.start) st =
      .ok (g.slots t.start) st := by
    simp only [CopyM.inspect, Memory.slots_of_form? (h.form? hs), attempt]
  have hslot : ∀ i < g.type.ptrs, g.IsSlot (.ptr i) := fun i hi ↦ .inl hi
  have hptrs : ∀ i < g.type.ptrs, o.Comes cs (f.cell o.memory s.start (.ptr i))
      (t.start + 1 + g.type.prims + i) := fun i hi ↦
    h.comes_cell ho hs (hslot i hi).has fun hn ↦ absurd (g.own_ptr i) hn
  rw [Evacuation.scanObject, ends_bind_iff, ends_iff_of_eq_ok hslots, Slots.visit]
  refine ((ends_visitRange ho h fun i hi ↦ ⟨hptrs i hi, hdue _ (hslot i hi)⟩).and
    (ends_visitRange_frame h.beyond _ _)).mono (fun _ _ h ↦ h) (fun _ _ _ ↦ trivial) |>.bind ?_
  rintro _ st₁ ⟨⟨cs₁, h₁, hl₁, -⟩, hf₁⟩
  have hf₁ := hf₁.slots h.plan hs.object (fun i hi ↦ hs.isSlot (hslot i hi)) hptrs
  exact (ends_visitTail_frame ho h₁ (hs.mono hl₁.copies.subset) hdue).imp
    fun _ _ hf ↦ hf₁.trans hf

end Scan

/-! ### The scan of the target -/

/-- Each part of an object is an own part of it or of its block, which lies with it. -/
theorem Sound.host (ho : o.Sound) (hf : o.Object s f) (hp : f.Has part) :
    ∃ b k part', o.Object b k ∧ k.Has part' ∧ k.Own part' ∧
      f.cell o.memory s.start part = k.cell o.memory b.start part' ∧
      (b ∈ o.inside ↔ s ∈ o.inside) := by
  by_cases hown : f.Own part
  · exact ⟨s, f, part, hf, hp, hown, rfl, Iff.rfl⟩
  · obtain ⟨j, rfl, hg⟩ := Form.exists_of_not_own hown
    obtain ⟨b, k, hk, -, hki, hz, -, hbi, hcell⟩ := ho.block hf hg
    have hj : j < k.size := hz.symm ▸ (hp : j < f.size)
    exact ⟨b, k, .unit j, hk, hj, fun _ _ ↦ hki, hcell j, hbi⟩

/-- The parts of an object outside the source that was there before come from themselves. -/
theorem Sound.comes_self (ho : o.Sound) (hs : s ∈ o.outside) (hf : o.Object s f)
    (hp : f.Has part) :
    o.Comes cs (f.cell o.memory s.start part) (f.cell o.memory s.start part) := by
  obtain ⟨b, k, part', hk, hp', hown, hcell, hbi⟩ := ho.host hf hp
  have hb : b ∈ o.outside := (mem_objects.mp hk.mem).resolve_left fun hin ↦
    ho.not_mem_outside (hbi.mp hin) hs
  rw [hcell]
  exact ⟨b, b, k, k, part', .stays hb hk, hp', hown, rfl, Form.cell_eq_of_own hown⟩

/-- The slots of an object of the source lie in the source. -/
theorem Sound.not_aside_of_slotOf (ho : o.Sound) (hi : s ∈ o.inside) (hp : o.SlotOf s p) :
    ¬ o.Aside p := by
  obtain ⟨f, part, hf, hpart, rfl⟩ := hp
  obtain ⟨b, k, part', hk, hp', hown, hcell, hbi⟩ := ho.host hf hpart.has
  intro ha
  rw [hcell, Form.cell_eq_of_own hown] at ha
  have hlt := (Form.index_lt_used hp' hown).2
  have hu := ho.wellFormed.used_le hk
  exact ha.ne_source (ho.contains_inside (hbi.mpr hi) (by omega)) rfl

/-- A scan of the copies changes no word that lies aside. -/
theorem ends_scanFrom_frame (ho : o.Sound) (h : o.Holds cs st.memory st.target) :
    Ends (o.pass.scanFrom o.target.cursor) st (fun _ ↦ o.Frame W st) (fun _ _ ↦ True) := by
  have htiles := h.plan.tiles
  rw [h.start] at htiles
  refine (ends_scanUpTo cs (fun cs c ↦ c ∈ cs) (fun _ _ s ↦ o.Frame W st s) (fun _ _ _ hc ↦ hc)
    (fun _ _ _ hcs hc ↦ hcs.subset hc) (fun done cs' c st' hh hc hf ↦ ?_) h (.refl h.beyond)
    (fun _ hc ↦ hc) htiles (by omega)).imp fun _ _ ⟨_, _, _, _, _, hf⟩ ↦ hf
  obtain ⟨hin, f, hf', hw⟩ := hh.plan.object c hc
  have hs : o.Stands cs' c.1 c.2 f (o.pass.shape f) := .copied hc hf'
  have hdue : ∀ part, (o.pass.shape f).IsSlot part → o.DueSlot (f.cell o.memory c.1.start part) :=
    fun _ ↦ hs.dueSlot (hh.plan.due c hc)
  refine ((ends_scanObject ho hh hs hdue).and (ends_scanObject_frame ho hh hs hdue)).mono ?_
    fun _ _ _ ↦ trivial
  rintro _ st'' ⟨⟨cs'', h', hl, -⟩, hf''⟩
  refine ⟨?_, cs'', h', hl, hf.trans (hf''.mono fun p hp hsl ↦ ?_)⟩
  · rw [Memory.extent_of_form? _ (h'.form? (hs.mono hl.copies.subset)), hw]
  · exact absurd hp (ho.not_aside_of_slotOf hin hsl)

end Origin

end Tenure
