import Tenure.Proofs.Pass.Origin

/-!
# Progress of a copying pass

`Holds` tells the memory in the middle of a pass, word by word, against the origin of the pass and
the copies made so far. Main statements: `Holds.leads`, every reference leads to where the object is
now that it led to at the origin; and one lemma for each thing that a pass does to the memory:
`Holds.write_slot`, `Holds.shorten` and `Holds.copy`.
-/

namespace Tenure.Origin

/-- Word `p` holds what word `q` of the origin held, or a reference to where the object is now that
a slot `q` referred to. -/
def Carries (o : Origin) (cs : Copies) (m : Memory) (q p : Nat) : Prop :=
  m.read p = o.memory.read q ∨ o.Slot q ∧ ∃ a s f, o.memory.read q = Word.ofAddr a ∧
    IsObject o.objects a ∧ o.Object s f ∧ o.memory.Leads a s.start ∧
    m.read p = Word.ofAddr (cs.current s.start) ∧
    o.pass.source.contains (cs.current s.start) = false

/-- The memory and the target in the middle of a pass. -/
structure Holds (o : Origin) (cs : Copies) (m : Memory) (target : Region) : Prop where
  plan : o.Plan cs (target.start + target.cursor)
  start : target.start = o.target.start
  capacity : target.capacity = o.target.capacity
  endAddr : m.endAddr = o.memory.endAddr
  /-- A copied object leads to its copy. -/
  forward : ∀ s t, (s, t) ∈ cs → m.read s.start = (Header.forward (Word.ofAddr t.start)).word
  /-- What lies neither in the target nor in an object outside the source is as it was. -/
  elsewhere : ∀ a, o.target.contains a = false →
    (∀ s ∈ o.outside, ∀ i < s.words, s.start + i ≠ a) → (∀ c ∈ cs, c.1.start ≠ a) →
    m.read a = o.memory.read a
  /-- An indirection outside the source is as it was, or leads to its end at once. -/
  husk : ∀ s ∈ o.outside, o.memory.hop? s.start ≠ none →
    m.read s.start = o.memory.read s.start ∨ ∃ d f, o.Object d f ∧
      o.memory.Leads s.start d.start ∧
      m.read s.start = (Header.forward (Word.ofAddr (cs.current d.start))).word ∧
      o.pass.source.contains (cs.current d.start) = false
  header : ∀ s t f g, o.Stands cs s t f g → m.read t.start = g.header.word
  blank : ∀ s t f g, o.Stands cs s t f g → ∀ i, g.used ≤ i → i < t.words →
    m.read (t.start + i) = 0
  word : ∀ q p, o.Comes cs q p → o.Carries cs m q p
  vacant : ∀ i, target.cursor ≤ i → i < target.capacity → m.read (target.start + i) = 0

variable {o : Origin} {cs ds : Copies} {m m' : Memory} {target target' : Region} {s t u : Span}
  {f g k : Form} {a d i p q stop stop' : Nat} {part : Part}

/-- Nothing has been copied at the origin. -/
theorem Sound.holds (ho : o.Sound) : o.Holds [] o.memory o.target where
  plan := ⟨⟨by simp, by simp, .nil⟩, rfl, by have := o.target.cursor_le; omega⟩
  start := rfl
  capacity := rfl
  endAddr := rfl
  forward := by simp
  elsewhere := fun _ _ _ _ ↦ rfl
  husk := fun _ _ _ ↦ .inl rfl
  header := by
    intro s t f g hs
    cases hs with
    | stays _ hf => exact Memory.read_of_form? hf.form?
    | copied hc => cases hc
  blank := by
    intro s t f g hs
    cases hs with
    | stays _ hf => exact ho.wellFormed.blank s f hf
    | copied hc => cases hc
  word := by
    rintro q p ⟨s, t, f, g, part, hs, _, hown, rfl, rfl⟩
    cases hs with
    | stays => exact .inl (by rw [Form.cell_eq_of_own hown])
    | copied hc => cases hc
  vacant := ho.vacant

/-- Where an object is now stays so if that is outside the source. -/
theorem Plan.current_append (ho : o.Sound) (hp : o.Plan (cs ++ ds) stop)
    (hd : o.pass.source.contains (cs.current d) = false) :
    (cs ++ ds).current d = cs.current d := by
  by_cases hm : ∃ c ∈ cs, c.1.start = d
  · exact Copies.current_append_of_mem hm
  · have hn : ∀ c ∈ cs, c.1.start ≠ d := fun c hc he ↦ hm ⟨c, hc, he⟩
    rw [Copies.current_of_forall_ne hn] at hd ⊢
    exact hp.current_of_not_contains ho hd

/-! ### What the memory says in the middle of a pass -/

section Holds

variable (ho : o.Sound) (h : o.Holds cs m target)
include ho h

/-- What stands for an object has an address that a word can hold. -/
theorem Holds.stands_lt_limit (hs : o.Stands cs s t f g) : t.start < addressLimit :=
  Nat.lt_of_lt_of_le (hs.mapped ho h.plan (hs.words_pos ho h.plan)).2 o.memory.fits

omit ho in
/-- A pass maps no memory. -/
theorem Holds.mapped_iff : m.Mapped a ↔ o.memory.Mapped a := by
  simp only [Memory.Mapped, h.endAddr]

/-- The target is mapped. -/
theorem Holds.mapped_target (ha : o.target.contains a = true) : m.Mapped a := by
  rw [Region.mem_iff] at ha
  rw [h.mapped_iff, show a = o.target.start + (a - o.target.start) by omega]
  exact ho.mapped _ (by omega)

/-- There is a word where something stands for an object. -/
theorem Holds.mapped_stands (hs : o.Stands cs s t f g) : m.Mapped t.start :=
  h.mapped_iff.mpr (hs.mapped ho h.plan (hs.words_pos ho h.plan))

omit ho in
/-- What stands for an object has the form that it should have. -/
theorem Holds.form? (hs : o.Stands cs s t f g) : m.form? o.pass.table t.start = some g := by
  have hf := hs.object.form?
  obtain ⟨ht, hz⟩ := Memory.fits_of_form? hf
  have hty := (Memory.form?_eq_some_iff.mp hf).2
  have hr := h.header s t f g hs
  cases hs with
  | stays => exact Memory.form?_of_read hr ht hz hty
  | copied =>
    refine Memory.form?_of_read hr ?_ ?_ ?_
    · rwa [Evacuation.tag_shape]
    · rwa [Evacuation.size_shape]
    · rwa [Evacuation.tag_shape, Evacuation.type_shape]

/-- A word of an object inside is as it was, unless it is the header of a copied one. -/
theorem Holds.read_inside (hs : s ∈ o.inside) (hi : i < s.words)
    (hc : i = 0 → ∀ c ∈ cs, c.1 ≠ s) : m.read (s.start + i) = o.memory.read (s.start + i) := by
  have hmem : s ∈ o.objects := mem_objects.mpr (.inl hs)
  have hin := ho.contains_inside hs hi
  refine h.elsewhere _ (ho.apart _ hin) (fun u hu j hj he ↦ ?_) fun c hcm he ↦ ?_
  · rw [← he, (ho.outside u hu j hj).1] at hin
    cases hin
  · have hcs : c.1 ∈ o.objects := mem_objects.mpr (.inl (h.plan.object c hcm).1)
    have hst : c.1 = s :=
      ho.wellFormed.eq_of_common hcs hmem (ho.wellFormed.nonempty _ hcs) hi he
    rw [hst] at he
    exact hc (by omega) c hcm hst

/-- An object in the source that was not copied is as it was. -/
theorem Holds.form?_waiting (hs : o.Object s f) (hi : s ∈ o.inside) (hn : ∀ c ∈ cs, c.1 ≠ s) :
    m.form? o.pass.table s.start = some f := by
  have hr : m.read s.start = o.memory.read s.start :=
    h.read_inside ho hi (ho.wellFormed.nonempty s hs.mem) fun _ ↦ hn
  rw [Memory.form?_congr hr]
  exact hs.form?

/-- The parts of an object inside are where they were and hold what they held. -/
theorem Holds.cell_inside (hs : o.Object s f) (hi : s ∈ o.inside) :
    f.cell m s.start part = f.cell o.memory s.start part := by
  apply Form.cell_congr
  intro hf
  obtain ⟨h₀, h₁⟩ := Form.index_lt_used (show f.Has .link from hf) f.own_link
  rw [Form.cell_eq_of_own f.own_link]
  exact h.read_inside ho hi (Nat.lt_of_lt_of_le h₁ (ho.wellFormed.used_le hs)) (by omega)

private theorem Holds.read_cell_inside (hs : o.Object s f) (hi : s ∈ o.inside) (hp : f.Has part) :
    m.read (f.cell m s.start part) = o.memory.read (f.cell o.memory s.start part) := by
  rw [h.cell_inside ho hs hi]
  by_cases hown : f.Own part
  · obtain ⟨h₀, h₁⟩ := Form.index_lt_used hp hown
    rw [Form.cell_eq_of_own hown]
    exact h.read_inside ho hi (Nat.lt_of_lt_of_le h₁ (ho.wellFormed.used_le hs)) (by omega)
  · obtain ⟨j, rfl, hf⟩ := Form.exists_of_not_own hown
    have hj : j < f.size := hp
    obtain ⟨b, l, hb, -, hin, hz, -, hib, hc⟩ := ho.block hs hf
    have hown : l.Own (.unit j) := fun _ _ ↦ hin
    have hpl : l.Has (.unit j) := by rw [← hz] at hj; exact hj
    obtain ⟨h₀, h₁⟩ := Form.index_lt_used hpl hown
    rw [hc, Form.cell_eq_of_own hown]
    exact h.read_inside ho (hib.mpr hi) (Nat.lt_of_lt_of_le h₁ (ho.wellFormed.used_le hb))
      (by omega)

/-- What an object led to is what it leads to, wherever that is now. -/
theorem Holds.leads (hs : o.Object s f) (ha : IsObject o.objects a)
    (hl : o.memory.Leads a s.start) : m.Leads a (cs.current s.start) := by
  have hend : m.Leads (cs.current s.start) (cs.current s.start) := by
    refine .here ?_
    cases hn : o.pass.source.contains (cs.current s.start) with
    | true =>
      obtain ⟨hi, hc, hw⟩ := h.plan.waiting ho hs hn
      rw [hc]
      exact Memory.hop?_of_form? (h.form?_waiting ho hs hi hw)
    | false =>
      obtain ⟨t, g, ht, he⟩ := h.plan.stands ho hs hn
      rw [← he]
      exact Memory.hop?_of_form? (h.form? ht)
  refine hl.induction (motive := fun x ↦ IsObject o.objects x → m.Leads x (cs.current s.start))
    (fun _ _ ↦ ?_) (fun x b hx hlb ih hox ↦ ?_) ha
  · rcases cs.current_cases s.start with ⟨s', t, hc, he, hcur⟩ | ⟨_, hcur⟩
    · rw [hcur] at hend ⊢
      have hr := h.forward s' t hc
      obtain ⟨k, hk, -⟩ := (h.plan.object _ hc).2
      rw [he] at hr
      exact .hop (Memory.hop?_of_read hr (h.stands_lt_limit ho (.copied hc hk))) hend
    · rwa [hcur] at hend ⊢
  · obtain ⟨_, hob, -⟩ := ho.wellFormed.valid_of_hop? hox hx
    obtain ⟨u, hu, rfl⟩ := hox
    -- A hop is as it was at the origin or was shortened, and both lead to the same end.
    have hunchanged : m.read u.start = o.memory.read u.start →
        m.Leads u.start (cs.current s.start) :=
      fun hr ↦ .hop (by rw [Memory.hop?_congr hr, hx]) (ih hob)
    rcases mem_objects.mp hu with hi | hout
    · have hu₀ := ho.wellFormed.nonempty u hu
      refine hunchanged (h.read_inside ho hi (i := 0) hu₀ fun _ c hc he ↦ ?_)
      obtain ⟨k, hk, -⟩ := (h.plan.object c hc).2
      rw [he] at hk
      rw [hk.hop?] at hx
      cases hx
    · rcases h.husk u hout (by rw [hx]; simp) with hr | ⟨d, k, hd, hld, hr, hn⟩
      · exact hunchanged hr
      · have hds : d.start = s.start := hld.unique (.hop hx hlb)
        rw [hds] at hr hn
        obtain ⟨t, g, ht, he⟩ := h.plan.stands ho hs hn
        exact .hop (Memory.hop?_of_read hr (he ▸ h.stands_lt_limit ho ht)) hend

/-- An indirection outside the source is one still. -/
theorem Holds.hop?_husk (hu : u ∈ o.outside) (hh : o.memory.hop? u.start ≠ none) :
    m.hop? u.start ≠ none := by
  rcases h.husk u hu hh with he | ⟨d, k, hd, -, hr, hn⟩
  · rwa [Memory.hop?_congr he]
  · obtain ⟨t, g, ht, hcur⟩ := h.plan.stands ho hd hn
    rw [← hcur] at hr
    rw [Memory.hop?_of_read hr (h.stands_lt_limit ho ht)]
    simp

/-- What a word carries of a slot is null or a reference to where an object is now. -/
theorem Holds.carries_slot (hq : o.Slot q) (hc : o.Carries cs m q p) :
    o.memory.read q = Word.null ∧ m.read p = Word.null ∨
    ∃ b a s f, o.memory.read q = Word.ofAddr b ∧ IsObject o.objects b ∧ o.Object s f ∧
      o.memory.Leads b s.start ∧ m.read p = Word.ofAddr a ∧ m.Mapped a ∧
      m.Leads a (cs.current s.start) := by
  rcases hc with he | ⟨-, b, s, f, hb, hob, hs, hl, hr, hn⟩
  · rcases ho.slot hq with hz | ⟨b, s, f, hb, hob, hs, hl⟩
    · exact .inl ⟨hz, he.trans hz⟩
    · refine .inr ⟨b, b, s, f, hb, hob, hs, hl, he.trans hb, ?_, h.leads ho hs hob hl⟩
      exact (h.mapped_iff).mpr (ho.wellFormed.mapped_of_isObject hob)
  · obtain ⟨t, g, ht, hcur⟩ := h.plan.stands ho hs hn
    have hm := h.mapped_stands ho ht
    rw [hcur] at hm
    refine .inr ⟨b, _, s, f, hb, hob, hs, hl, hr, hm, .here ?_⟩
    rw [← hcur]
    exact Memory.hop?_of_form? (h.form? ht)

/-- A word that comes from a part is no header of what stands for an object. -/
theorem Comes.ne_start (hc : o.Comes cs q p) (hs : o.Stands cs s t f g) : p ≠ t.start := by
  obtain ⟨s', t', f', g', part, hs', hp, hown, -, rfl⟩ := hc
  obtain ⟨h₀, h₁⟩ := Form.index_lt_used hp hown
  have hu := hs'.used_le ho h.plan
  intro he
  obtain ⟨-, rfl, -, -⟩ := hs'.unique ho h.plan hs (by omega) (hs.words_pos ho h.plan) he
  omega

/-- A word that comes from a part does not only round a size up. -/
theorem Comes.ne_blank (hc : o.Comes cs q p) (hs : o.Stands cs s t f g) (hi : g.used ≤ i)
    (hi' : i < t.words) : p ≠ t.start + i := by
  obtain ⟨s', t', f', g', part, hs', hp, hown, -, rfl⟩ := hc
  have h₁ := (Form.index_lt_used hp hown).2
  have hu := hs'.used_le ho h.plan
  intro he
  obtain ⟨-, rfl, -, rfl⟩ := hs'.unique ho h.plan hs (by omega) hi' he
  omega

/-- A word that comes from a part is one of an object that stands for another. -/
theorem Comes.exists_stands (hc : o.Comes cs q p) :
    ∃ s t f g i, o.Stands cs s t f g ∧ i < t.words ∧ p = t.start + i := by
  obtain ⟨s, t, f, g, part, hs, hp, hown, -, rfl⟩ := hc
  have h₁ := (Form.index_lt_used hp hown).2
  exact ⟨s, t, f, g, _, hs, Nat.lt_of_lt_of_le h₁ (hs.used_le ho h.plan), rfl⟩

/-- A word that comes from somewhere is mapped. -/
theorem Comes.mapped (hc : o.Comes cs q p) : m.Mapped p := by
  obtain ⟨s, t, f, g, i, hs, hi, rfl⟩ := hc.exists_stands ho h
  exact h.mapped_iff.mpr (hs.mapped ho h.plan hi)

/-- A word that comes from somewhere lies outside the source. -/
theorem Comes.not_contains (hc : o.Comes cs q p) : o.pass.source.contains p = false := by
  obtain ⟨s, t, f, g, i, hs, hi, rfl⟩ := hc.exists_stands ho h
  exact hs.not_contains ho h.plan hi

/-- A word of what stands for an object is not in the part of the target that is not in use. -/
theorem Stands.ne_free (hs : o.Stands cs s t f g) (hi : i < t.words) {j : Nat}
    (hj : target.cursor ≤ j) (hj' : j < target.capacity) : t.start + i ≠ target.start + j := by
  have hstart := h.start
  rw [hstart]
  exact hs.ne_vacant ho h.plan hi (by omega) (by rwa [← h.capacity])

/-- No word of an object that stands for another is an indirection. -/
theorem Stands.ne_outside (hs : o.Stands cs s t f g) (hi : i < t.words) (hu : u ∈ o.outside)
    (hh : o.memory.hop? u.start ≠ none) : t.start + i ≠ u.start := by
  have hn := ho.nonempty_outside hu
  intro he
  cases hs with
  | stays _ hf =>
    obtain rfl := ho.wellFormed.eq_of_common hf.mem (mem_objects.mpr (.inr hu)) hi hn he
    exact hh hf.hop?
  | copied hc _ =>
    obtain ⟨j, hj, hj', -, he'⟩ := h.plan.exists_vacant hc hi
    exact ho.ne_vacant hu hn hj hj' (he.symm.trans he')

/-- A word that comes from a part is no indirection outside the source. -/
theorem Comes.ne_outside (hc : o.Comes cs q p) (hu : u ∈ o.outside)
    (hh : o.memory.hop? u.start ≠ none) : p ≠ u.start := by
  obtain ⟨s, t, f, g, i, hs, hi, rfl⟩ := hc.exists_stands ho h
  exact hs.ne_outside ho h hi hu hh

/-- A word that comes from a part is one of the target or of an object outside the source. -/
theorem Comes.ne_elsewhere (hc : o.Comes cs q p) (ha : o.target.contains a = false)
    (hout : ∀ s ∈ o.outside, ∀ i < s.words, s.start + i ≠ a) : p ≠ a := by
  obtain ⟨s, t, f, g, i, hs, hi, rfl⟩ := hc.exists_stands ho h
  cases hs with
  | stays hm _ => exact hout s hm i hi
  | copied hm _ =>
    obtain ⟨j, -, hj, -, he⟩ := h.plan.exists_vacant hm hi
    rintro rfl
    rw [he, Region.mem_iff.mpr ⟨by omega, by omega⟩] at ha
    cases ha

/-- The header of a copied object lies in the source. -/
theorem Holds.ne_copied {c : Span × Span} (hc : c ∈ cs) (ha : o.pass.source.contains a = false) :
    a ≠ c.1.start := by
  rintro rfl
  have hi := (h.plan.object c hc).1
  rw [(ho.contains_iff (mem_objects.mpr (.inl hi))).mpr hi] at ha
  cases ha

/-! ### The steps -/

/-- A slot may be made to refer to where its object is now, outside the source. -/
theorem Holds.write_slot {b : Nat} (hc : o.Comes cs q p) (hq : o.Slot q)
    (hb : o.memory.read q = Word.ofAddr b) (hob : IsObject o.objects b) (hs : o.Object s f)
    (hl : o.memory.Leads b s.start) (hn : o.pass.source.contains (cs.current s.start) = false) :
    o.Holds cs (m.writeRef p (cs.current s.start)) target := by
  have hne : ∀ {a}, p ≠ a → (m.writeRef p (cs.current s.start)).read a = m.read a :=
    fun hpa ↦ Memory.read_write_of_ne _ hpa
  refine ⟨h.plan, h.start, h.capacity, ?_, fun s t hst ↦ ?_, fun a ha hout hca ↦ ?_,
    fun u hu hh ↦ ?_, fun s t f g hst ↦ ?_, fun s t f g hst i hi hi' ↦ ?_, fun q' p' hc' ↦ ?_,
    fun i hi hi' ↦ ?_⟩
  · rw [Memory.writeRef, Memory.endAddr_write, h.endAddr]
  · rw [hne (h.ne_copied ho hst (hc.not_contains ho h))]
    exact h.forward s t hst
  · rw [hne (hc.ne_elsewhere ho h ha hout)]
    exact h.elsewhere a ha hout hca
  · rw [hne (hc.ne_outside ho h hu hh)]
    exact h.husk u hu hh
  · rw [hne (hc.ne_start ho h hst)]
    exact h.header s t f g hst
  · rw [hne (hc.ne_blank ho h hst hi hi')]
    exact h.blank s t f g hst i hi hi'
  · by_cases he : p = p'
    · subst he
      obtain rfl := hc.unique ho h.plan hc'
      refine .inr ⟨hq, b, s, f, hb, hob, hs, hl, ?_, hn⟩
      exact Memory.read_write_self _ (hc.mapped ho h)
    · rw [Carries, hne he]
      exact h.word q' p' hc'
  · obtain ⟨s', t', f', g', j, hst, hj, rfl⟩ := hc.exists_stands ho h
    rw [hne (hst.ne_free ho h hj hi hi')]
    exact h.vacant i hi hi'

/-- An indirection outside the source may be made to lead to where its end is now. -/
theorem Holds.shorten (hu : u ∈ o.outside) (hh : o.memory.hop? u.start ≠ none)
    (hs : o.Object s f) (hl : o.memory.Leads u.start s.start)
    (hn : o.pass.source.contains (cs.current s.start) = false) :
    o.Holds cs (m.redirect u.start (cs.current s.start)) target := by
  have hn₀ := ho.nonempty_outside hu
  have hne : ∀ {a}, u.start ≠ a → (m.redirect u.start (cs.current s.start)).read a = m.read a :=
    fun hua ↦ Memory.read_write_of_ne _ hua
  refine ⟨h.plan, h.start, h.capacity, ?_, fun s t hst ↦ ?_, fun a ha hout hca ↦ ?_,
    fun v hv hh' ↦ ?_, fun s t f g hst ↦ ?_, fun s t f g hst i hi hi' ↦ ?_, fun q' p' hc' ↦ ?_,
    fun i hi hi' ↦ ?_⟩
  · rw [Memory.redirect, Memory.writeHeader, Memory.endAddr_write, h.endAddr]
  · rw [hne (h.ne_copied ho hst (ho.not_contains_outside hu))]
    exact h.forward s t hst
  · rw [hne (hout u hu 0 hn₀)]
    exact h.elsewhere a ha hout hca
  · by_cases he : u.start = v.start
    · refine .inr ⟨s, f, hs, he ▸ hl, ?_, hn⟩
      rw [← he]
      exact Memory.read_write_self _
        (h.mapped_iff.mpr (ho.wellFormed.mapped_start (mem_objects.mpr (.inr hu))))
    · rw [hne he]
      exact h.husk v hv hh'
  · rw [hne (a := t.start) (hst.ne_outside ho h (hst.words_pos ho h.plan) hu hh).symm]
    exact h.header s t f g hst
  · rw [hne (hst.ne_outside ho h hi' hu hh).symm]
    exact h.blank s t f g hst i hi hi'
  · rw [Carries, hne (hc'.ne_outside ho h hu hh).symm]
    exact h.word q' p' hc'
  · have hstart := h.start
    have hcap := h.capacity
    have hle := h.plan.tiles.le
    rw [hne (hstart ▸ ho.ne_vacant hu hn₀ (by omega) (by omega))]
    exact h.vacant i hi hi'

end Holds

/-- What copying an object `s` to `t` does to the memory. -/
structure Copied (o : Origin) (m m' : Memory) (s t : Span) (f : Form) : Prop where
  endAddr : m'.endAddr = m.endAddr
  forward : m'.read s.start = (Header.forward (Word.ofAddr t.start)).word
  header : m'.read t.start = (o.pass.shape f).header.word
  part : ∀ part, (o.pass.shape f).Has part → (o.pass.shape f).Own part →
    m'.read (t.start + (o.pass.shape f).index part) = m.read (f.cell m s.start part)
  blank : ∀ i, (o.pass.shape f).used ≤ i → i < t.words → m'.read (t.start + i) = 0
  same : ∀ a, a ≠ s.start → (∀ i < t.words, a ≠ t.start + i) → m'.read a = m.read a

/-- The next words of the target, for a copy of an object that has none yet. -/
structure Next (o : Origin) (cs : Copies) (target target' : Region) (s t : Span) (f : Form) :
    Prop where
  object : o.Object s f
  inside : s ∈ o.inside
  due : o.Due s.start
  waiting : ∀ c ∈ cs, c.1 ≠ s
  at_cursor : t.start = target.start + target.cursor
  words : t.words = (o.pass.shape f).words o.pass.padding
  start : target'.start = target.start
  capacity : target'.capacity = target.capacity
  cursor : target'.cursor = target.cursor + t.words

section Copy

variable (ho : o.Sound) (h : o.Holds cs m target) (hx : o.Next cs target target' s t f)
include h hx

/-- The copies go on to fill the target from its end. -/
theorem Next.plan : o.Plan (cs ++ [(s, t)]) (target'.start + target'.cursor) := by
  refine ⟨h.plan.toSelection.append hx.inside hx.object hx.due hx.waiting hx.words, ?_, ?_⟩
  · rw [List.map_append, tiles_append]
    refine ⟨_, h.plan.tiles, tiles_singleton.mpr ⟨hx.at_cursor, ?_, ?_⟩⟩
    · rw [hx.words]
      exact Form.words_pos _ _
    · simp only [Span.stop, hx.at_cursor, hx.start, hx.cursor]
      omega
  · have := target'.cursor_le
    rw [hx.start, h.start]
    rw [hx.capacity, h.capacity] at this
    omega

/-- The words of the copy are vacant. -/
theorem Next.cursor_le : target.cursor + t.words ≤ o.target.capacity := by
  have := target'.cursor_le
  rw [hx.capacity, hx.cursor, h.capacity] at this
  exact this

omit h hx in
/-- Of the old words, copying changes only the header of the object. -/
theorem Copied.read_eq (hm : o.Copied m m' s t f) (hs : a ≠ s.start)
    (ha : a < t.start ∨ t.start + t.words ≤ a) : m'.read a = m.read a :=
  hm.same a hs fun i hi ↦ by omega

include ho

/-- An object outside the source has no word of the copy. -/
theorem Next.ne_outside (hu : u ∈ o.outside) {j : Nat} (hj : j < u.words) (hi : i < t.words) :
    u.start + j ≠ t.start + i := by
  have hfit := hx.cursor_le h
  have hstart := h.start
  have hle := h.plan.tiles.le
  rw [hx.at_cursor, hstart, Nat.add_assoc]
  exact ho.ne_vacant hu hj (by omega) (by omega)

/-- What stood for an object is as it was. -/
theorem Copied.read_stands (hm : o.Copied m m' s t f) {s' t' : Span} {f' g' : Form}
    (hs : o.Stands cs s' t' f' g') (hi : i < t'.words) :
    m'.read (t'.start + i) = m.read (t'.start + i) := by
  have hcs := hs.not_contains ho h.plan hi
  refine hm.same _ (fun he ↦ ?_) fun j hj ↦ ?_
  · rw [he, (ho.contains_iff hx.object.mem).mpr hx.inside] at hcs
    cases hcs
  · have hfit := hx.cursor_le h
    rw [hx.at_cursor, Nat.add_assoc]
    exact hs.ne_free ho h hi (by omega) (by rw [h.capacity]; omega)

/-- What a word carried it carries with one more copy. -/
theorem Carries.copy (hm : o.Copied m m' s t f) (hc : o.Comes cs q p)
    (hw : o.Carries cs m q p) : o.Carries (cs ++ [(s, t)]) m' q p := by
  have hr : m'.read p = m.read p := by
    obtain ⟨s', t', f', g', part, hs, hp, hown, -, rfl⟩ := hc
    have h₁ := (Form.index_lt_used hp hown).2
    exact hm.read_stands ho h hx hs (Nat.lt_of_lt_of_le h₁ (hs.used_le ho h.plan))
  rw [Carries, hr]
  rcases hw with he | ⟨hq, b, d, k, hb, hob, hd, hl, hp, hn⟩
  · exact .inl he
  · have hcur := Plan.current_append ho (hx.plan h) hn
    exact .inr ⟨hq, b, d, k, hb, hob, hd, hl, by rw [hcur, hp], by rw [hcur, hn]⟩

omit h ho in
/-- With one more copy, what stands for an object did so before or is the new copy. -/
theorem Next.stands {s' t' : Span} {f' g' : Form}
    (hs : o.Stands (cs ++ [(s, t)]) s' t' f' g') :
    o.Stands cs s' t' f' g' ∨ s' = s ∧ t' = t ∧ f' = f ∧ g' = o.pass.shape f := by
  cases hs with
  | stays hs' hf' => exact .inl (.stays hs' hf')
  | copied hc hf' =>
    rcases List.mem_append.mp hc with hc | hc
    · exact .inl (.copied hc hf')
    · obtain ⟨rfl, rfl⟩ := Prod.mk.inj (List.mem_singleton.mp hc)
      obtain rfl := hf'.unique hx.object
      exact .inr ⟨rfl, rfl, rfl, rfl⟩

/-- Copying leaves the headers outside the source as they are. -/
theorem Copied.read_outside (hm : o.Copied m m' s t f) (hu : u ∈ o.outside) :
    m'.read u.start = m.read u.start := by
  refine hm.same _ (fun he ↦ ?_) fun i hi ↦ hx.ne_outside ho h hu (ho.nonempty_outside hu) hi
  have hn := ho.not_contains_outside hu
  rw [he, (ho.contains_iff hx.object.mem).mpr hx.inside] at hn
  cases hn

/-- An object of the source may be copied to the next words of the target. -/
theorem Holds.copy (hm : o.Copied m m' s t f) : o.Holds (cs ++ [(s, t)]) m' target' := by
  have hfit := hx.cursor_le h
  have hstart := h.start
  have hat := hx.at_cursor
  have htt : ∀ i < t.words, o.target.contains (t.start + i) = true := by
    intro i hi
    exact Region.mem_iff.mpr ⟨by omega, by omega⟩
  constructor
  case plan => exact hx.plan h
  case start => exact hx.start.trans h.start
  case capacity => exact hx.capacity.trans h.capacity
  case endAddr => exact hm.endAddr.trans h.endAddr
  case forward =>
    intro s' t' hc
    rcases List.mem_append.mp hc with hc | hc
    · have hi := (h.plan.object _ hc).1
      have hne : s'.start ≠ s.start := fun he ↦ hx.waiting _ hc
        (ho.wellFormed.eq_of_start (mem_objects.mpr (.inl hi)) hx.object.mem he)
      rw [hm.same _ hne fun i hi ↦ (h.ne_copied ho hc (ho.not_contains_target (htt i hi))).symm]
      exact h.forward s' t' hc
    · obtain ⟨rfl, rfl⟩ := Prod.mk.inj (List.mem_singleton.mp hc)
      exact hm.forward
  case elsewhere =>
    intro a ha hout hc
    rw [hm.same a (fun he ↦ hc _ (List.mem_append_right _ (List.mem_singleton_self _)) he.symm) ?_]
    · exact h.elsewhere a ha hout fun c hcm ↦ hc c (List.mem_append_left _ hcm)
    · intro i hi he
      rw [he, htt i hi] at ha
      cases ha
  case husk =>
    intro u hu hh
    rw [hm.read_outside ho h hx hu]
    rcases h.husk u hu hh with he | ⟨d, k, hd, hl, hp, hn⟩
    · exact .inl he
    · -- What lies outside the source stays where it is, whatever is copied after it.
      have hcur := Plan.current_append ho (hx.plan h) hn
      exact .inr ⟨d, k, hd, hl, by rw [hcur, hp], by rw [hcur, hn]⟩
  case header =>
    intro s' t' f' g' hs
    rcases hx.stands hs with hs | ⟨rfl, rfl, rfl, rfl⟩
    · have hr := hm.read_stands ho h hx hs (hs.words_pos ho h.plan)
      exact hr.trans (h.header s' t' f' g' hs)
    · exact hm.header
  case blank =>
    intro s' t' f' g' hs i hi hi'
    rcases hx.stands hs with hs | ⟨rfl, rfl, rfl, rfl⟩
    · rw [hm.read_stands ho h hx hs hi']
      exact h.blank s' t' f' g' hs i hi hi'
    · exact hm.blank i hi hi'
  case word =>
    rintro q p ⟨s', t', f', g', part, hs, hp, hown, rfl, rfl⟩
    rcases hx.stands hs with hs | ⟨rfl, rfl, rfl, rfl⟩
    · have hc : o.Comes cs _ _ := ⟨s', t', f', g', part, hs, hp, hown, rfl, rfl⟩
      exact Carries.copy ho h hx hm hc (h.word _ _ hc)
    · refine .inl ?_
      rw [hm.part part hp hown]
      exact h.read_cell_inside ho hx.object hx.inside (Evacuation.has_of_shape hp)
  case vacant =>
    intro i hi hi'
    rw [hx.cursor] at hi
    rw [hx.capacity, h.capacity] at hi'
    rw [hx.start]
    have hct : o.target.contains (target.start + i) = true :=
      Region.mem_iff.mpr ⟨by omega, by omega⟩
    have hne : target.start + i ≠ s.start := by
      intro he
      rw [he, ho.apart _ ((ho.contains_iff hx.object.mem).mpr hx.inside)] at hct
      cases hct
    rw [hm.read_eq hne (.inr (by omega))]
    exact h.vacant i (by omega) (by rw [h.capacity]; exact hi')

end Copy

end Tenure.Origin
