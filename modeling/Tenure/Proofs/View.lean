import Tenure.Proofs.WellFormed

/-!
# Views of objects

The view of an object is its contents with every reference followed through indirections, so that
equal views mean equal objects to a program. Main statements: `view_of_form?`, the view part by
part; `view_eq_map`, two objects with corresponding parts have corresponding views.
-/

namespace Tenure

variable {ρ σ τ : Type}

/-- Rename the references among tail units. -/
def Units.map (φ : ρ → σ) : Units ρ → Units σ
  | .words values => .words values
  | .refs values => .refs (values.map (·.map φ))

/-- Rename the references. -/
def Contents.map (φ : ρ → σ) (c : Contents ρ) : Contents σ where
  prims := c.prims
  ptrs := c.ptrs.map (·.map φ)
  units := c.units.map φ

/-- The references among tail units. -/
def Units.references : Units ρ → List ρ
  | .words _ => []
  | .refs values => values.filterMap id

/-- The references. -/
def Contents.references (c : Contents ρ) : List ρ := c.ptrs.filterMap id ++ c.units.references

/-- To rename units twice is to rename them once. -/
theorem Units.map_map (φ : ρ → σ) (ψ : σ → τ) (u : Units ρ) :
    (u.map φ).map ψ = u.map (ψ ∘ φ) := by
  cases u with
  | words => rfl
  | refs values => simp only [map, List.map_map, Function.comp_def, Option.map_map]

/-- To rename contents twice is to rename them once. -/
theorem Contents.map_map (φ : ρ → σ) (ψ : σ → τ) (c : Contents ρ) :
    (c.map φ).map ψ = c.map (ψ ∘ φ) := by
  simp only [map, Units.map_map, List.map_map, Function.comp_def, Option.map_map]

/-- To rename nothing changes nothing. -/
theorem Contents.map_id (c : Contents ρ) : c.map id = c := by
  have hu : c.units.map id = c.units := by
    cases c.units with
    | words => rfl
    | refs values => simp only [Units.map, Option.map_id, List.map_id]
  simp only [map, hu, Option.map_id, List.map_id]

/-- Renaming nothing changes nothing. -/
theorem Contents.map_map_id (v : Option (Contents ρ)) : v.map (·.map id) = v := by
  cases v with
  | none => rfl
  | some c => rw [Option.map_some, map_id]

private theorem map_congr_of_mem {φ ψ : ρ → σ} {xs : List (Option ρ)}
    (h : ∀ a ∈ xs.filterMap id, φ a = ψ a) : xs.map (·.map φ) = xs.map (·.map ψ) := by
  apply List.map_congr_left
  intro x hx
  cases x with
  | none => rfl
  | some a => simp only [Option.map_some, h a (List.mem_filterMap.mpr ⟨some a, hx, rfl⟩)]

/-- Only what happens to the references that occur counts. -/
theorem Contents.map_congr {φ ψ : ρ → σ} {c : Contents ρ} (h : ∀ a ∈ c.references, φ a = ψ a) :
    c.map φ = c.map ψ := by
  simp only [references, List.mem_append] at h
  have hp := map_congr_of_mem fun a ha ↦ h a (.inl ha)
  have hu : c.units.map φ = c.units.map ψ := by
    cases hc : c.units with
    | words => rfl
    | refs values =>
      simp only [Units.map]
      rw [map_congr_of_mem fun a ha ↦ h a (.inr (by rw [hc]; exact ha))]
  simp only [map, hp, hu]

/-- The references of renamed contents are the renamed references. -/
@[simp] theorem Contents.references_map (φ : ρ → σ) (c : Contents ρ) :
    (c.map φ).references = c.references.map φ := by
  have hf : ∀ xs : List (Option ρ), (xs.map (·.map φ)).filterMap id = (xs.filterMap id).map φ := by
    intro xs
    induction xs with
    | nil => rfl
    | cons x xs ih => cases x <;> simp_all
  simp only [references, map, List.map_append, hf]
  cases c.units <;> simp only [Units.map, Units.references, List.map_nil, hf]

namespace Memory

/-- The object that a word refers to, if it is not null. -/
def denoted? (m : Memory) (p : Nat) : Option Nat := (Word.toRef? (m.read p)).map m.resolve

/-- The contents of an object, with each reference replaced by the object that it denotes. -/
def view (m : Memory) (table : TypeTable) (a : Nat) : Option (Contents Nat) :=
  (m.contents? table a).map (·.map m.resolve)

variable {m m' : Memory} {table : TypeTable} {padding : Bool} {os : List Span} {s : Span}
  {f g : Form} {a b d : Nat}

private theorem wordsAt_eq (m : Memory) (a n : Nat) :
    m.wordsAt a n = (List.range n).map fun i ↦ m.read (a + i) := by
  rw [wordsAt, List.range'_eq_map_range, List.map_map]
  rfl

/-- The view of an object, part by part. -/
theorem view_of_form? (h : m.form? table a = some f) (hb : ¬ f.IsBlock) :
    m.view table a = some {
      prims := (List.range f.type.prims).map fun i ↦ m.read (f.cell m a (.prim i))
      ptrs := (List.range f.type.ptrs).map fun i ↦ m.denoted? (f.cell m a (.ptr i))
      units := match f.type.units with
        | .words => .words ((List.range f.size).map fun i ↦ m.read (f.cell m a (.unit i)))
        | .refs => .refs ((List.range f.size).map fun i ↦ m.denoted? (f.cell m a (.unit i))) } := by
  simp only [view, contents?_of_form? h hb, Option.map_some, Contents.map, refsAt, wordsAt_eq,
    List.map_map]
  cases f.type.units <;> simp only [Units.map, List.map_map] <;> rfl

/-- Objects of one type and size, whose plain parts are the same and whose references correspond,
have corresponding views. -/
theorem view_eq_map (φ : Nat → Nat) (hf : m.form? table a = some f) (hb : ¬ f.IsBlock)
    (hg : m'.form? table b = some g) (hgb : ¬ g.IsBlock) (ht : g.type = f.type)
    (hs : g.size = f.size)
    (hw : ∀ part, f.Has part → part ≠ .link → ¬ f.Refers part →
      m'.read (g.cell m' b part) = m.read (f.cell m a part))
    (hr : ∀ part, f.Refers part →
      m'.denoted? (g.cell m' b part) = (m.denoted? (f.cell m a part)).map φ) :
    m'.view table b = (m.view table a).map (·.map φ) := by
  rw [view_of_form? hf hb, view_of_form? hg hgb, ht, hs]
  simp only [Option.map_some, Contents.map, List.map_map, Option.some.injEq, Contents.mk.injEq]
  refine ⟨List.map_congr_left fun i hi ↦ ?_, List.map_congr_left fun i hi ↦ ?_, ?_⟩
  · exact hw (.prim i) (List.mem_range.mp hi) (by simp) id
  · exact hr (.ptr i) (List.mem_range.mp hi)
  · cases hu : f.type.units with
    | words =>
      simp only [Units.map, Units.words.injEq]
      refine List.map_congr_left fun i hi ↦ hw (.unit i) (List.mem_range.mp hi) (by simp) ?_
      rintro ⟨-, he⟩
      rw [hu] at he
      cases he
    | refs =>
      simp only [Units.map, List.map_map, Units.refs.injEq]
      exact List.map_congr_left fun i hi ↦ hr (.unit i) ⟨List.mem_range.mp hi, hu⟩

/-- Objects of one form with corresponding views have the same plain parts and corresponding
references. -/
theorem parts_of_view_eq_map (φ : Nat → Nat) (hf : m.form? table a = some f) (hb : ¬ f.IsBlock)
    (hg : m'.form? table b = some f)
    (hv : m'.view table b = (m.view table a).map (·.map φ)) :
    (∀ part, f.Has part → part ≠ .link → ¬ f.Refers part →
      m'.read (f.cell m' b part) = m.read (f.cell m a part)) ∧
    ∀ part, f.Refers part →
      m'.denoted? (f.cell m' b part) = (m.denoted? (f.cell m a part)).map φ := by
  rw [view_of_form? hf hb, view_of_form? hg hb] at hv
  simp only [Option.map_some, Contents.map, List.map_map, Option.some.injEq,
    Contents.mk.injEq] at hv
  obtain ⟨hprims, hptrs, hunits⟩ := hv
  constructor
  · intro part hp hl hr
    cases part with
    | prim i => exact List.map_inj_left.mp hprims i (List.mem_range.mpr hp)
    | ptr i => exact absurd hp hr
    | link => exact absurd rfl hl
    | unit i =>
      cases hu : f.type.units with
      | words =>
        simp only [hu, Units.map, Units.words.injEq] at hunits
        exact List.map_inj_left.mp hunits i (List.mem_range.mpr hp)
      | refs => exact absurd ⟨hp, hu⟩ hr
  · intro part hr
    cases part with
    | prim i => exact hr.elim
    | ptr i => exact List.map_inj_left.mp hptrs i (List.mem_range.mpr hr)
    | link => exact hr.elim
    | unit i =>
      simp only [hr.2, Units.map, List.map_map, Units.refs.injEq] at hunits
      exact List.map_inj_left.mp hunits i (List.mem_range.mpr hr.1)

/-- An object whose parts hold and denote what they did looks as it did. -/
theorem view_congr (hf : m.form? table a = some f) (hb : ¬ f.IsBlock)
    (hf' : m'.form? table a = some f)
    (hw : ∀ part, f.Has part → part ≠ .link →
      m'.read (f.cell m' a part) = m.read (f.cell m a part))
    (hr : ∀ part, f.Refers part →
      m'.denoted? (f.cell m' a part) = m.denoted? (f.cell m a part)) :
    m'.view table a = m.view table a := by
  rw [← Contents.map_map_id (m.view table a)]
  apply view_eq_map id hf hb hf' hb rfl rfl (fun part hp hl _ ↦ hw part hp hl)
  intro part hp
  rw [hr part hp, Option.map_id, id]

/-- Blocks have no view. -/
theorem not_isBlock_of_view {c : Contents Nat} (hf : m.form? table a = some f)
    (hc : m.view table a = some c) : ¬ f.IsBlock := by
  intro hb
  rw [Form.IsBlock] at hb
  simp only [view, contents?, tagBits_of_form? hf, hb, if_true, Option.map_none] at hc
  cases hc

/-- The references in the view of an object are what its parts denote. -/
theorem mem_references_view {c : Contents Nat} (hf : m.form? table a = some f) (hb : ¬ f.IsBlock)
    (hc : m.view table a = some c) :
    d ∈ c.references ↔ ∃ part, f.Refers part ∧ m.denoted? (f.cell m a part) = some d := by
  rw [view_of_form? hf hb] at hc
  cases hc
  simp only [Contents.references, List.mem_append, List.mem_filterMap, List.mem_map, id]
  constructor
  · rintro (⟨x, ⟨i, hi, rfl⟩, hx⟩ | h)
    · exact ⟨.ptr i, List.mem_range.mp hi, hx⟩
    · cases hu : f.type.units with
      | words =>
        rw [hu] at h
        cases h
      | refs =>
        rw [hu] at h
        simp only [Units.references, List.mem_filterMap, List.mem_map] at h
        obtain ⟨x, ⟨i, hi, rfl⟩, hx⟩ := h
        exact ⟨.unit i, ⟨List.mem_range.mp hi, hu⟩, hx⟩
  · rintro ⟨part, hr, hp⟩
    cases part with
    | prim i => exact hr.elim
    | ptr i => exact .inl ⟨_, ⟨i, List.mem_range.mpr hr, rfl⟩, hp⟩
    | link => exact hr.elim
    | unit i =>
      right
      rw [hr.2]
      simp only [Units.references, List.mem_filterMap, List.mem_map]
      exact ⟨_, ⟨i, List.mem_range.mpr hr.1, rfl⟩, hp⟩

/-- In well-formed memory a reference part is null or denotes an object that a program can name. -/
theorem WellFormed.denoted? (hw : m.WellFormed table padding os) (hd : m.Direct table os s f)
    {part : Part} (hp : f.Refers part) :
    m.read (f.cell m s.start part) = Word.null ∧ m.denoted? (f.cell m s.start part) = none ∨
    ∃ a d, m.read (f.cell m s.start part) = Word.ofAddr a ∧ m.Denotes table os a d ∧
      m.denoted? (f.cell m s.start part) = some d := by
  rcases hw.reference s f hd part hp with h | ⟨a, h, d, hden⟩
  · refine .inl ⟨h, ?_⟩
    rw [Memory.denoted?, h]
    rfl
  · refine .inr ⟨a, d, h, hden, ?_⟩
    rw [Memory.denoted?, h, hw.toRef?_ofAddr hden.1, Option.map_some, hden.resolve]

/-- What an object refers to is an object that a program can name. -/
theorem WellFormed.direct_of_view {c : Contents Nat} (hw : m.WellFormed table padding os)
    (hd : m.Direct table os s f) (hb : ¬ f.IsBlock) (hc : m.view table s.start = some c)
    (he : b ∈ c.references) : ∃ t g, m.Direct table os t g ∧ t.start = b ∧ ¬ g.IsBlock := by
  obtain ⟨part, hp, hden⟩ := (mem_references_view hd.form? hb hc).mp he
  rcases hw.denoted? hd hp with ⟨-, hn⟩ | ⟨a, d, -, ⟨-, -, t, g, hg, rfl, hgb⟩, hs⟩
  · rw [hn] at hden
    cases hden
  · rw [hs] at hden
    exact ⟨t, g, hg, Option.some.inj hden, hgb⟩

/-- A reference part that holds the word it held denotes what the reference denotes now. -/
theorem WellFormed.denoted?_eq_map {φ : Nat → Nat} {c : Nat} (hw : m.WellFormed table padding os)
    (hd : m.Direct table os s f) {part : Part} (hp : f.Refers part)
    (hread : m'.read c = m.read (f.cell m s.start part))
    (hres : ∀ b d, m.Denotes table os b d → m'.resolve b = φ d) :
    m'.denoted? c = (m.denoted? (f.cell m s.start part)).map φ := by
  rcases hw.denoted? hd hp with ⟨hz, hn⟩ | ⟨b, d, hb, hden, hd⟩
  · rw [hn, Memory.denoted?, hread, hz]
    exact congrArg _ Word.toRef?_null
  · rw [hd, Memory.denoted?, hread, hb, hw.toRef?_ofAddr hden.1, Option.map_some, hres b d hden,
      Option.map_some]

end Memory

end Tenure
