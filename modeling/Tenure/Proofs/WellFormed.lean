import Tenure.Proofs.Chains
import Tenure.Proofs.Form
import Tenure.Proofs.Spans

/-!
# Well-formed memory

A memory is well-formed for a list of spans if each span begins with a header, every reference and
every indirection leads to an object that a program can name, and every link leads to a block that
no other object has. Main statements: `cell_inj`, no word is a part of two objects; `write_part`,
a well-formed memory stays so when a part of an object is written.
-/

namespace Tenure

namespace Form

variable {f : Form} {m : Memory} {a : Nat} {part : Part}

/-- The part lies in the object itself and not in its block. -/
def Own (f : Form) (part : Part) : Prop := ∀ i, part = .unit i → f.tail = .inline

/-- How far from the header an own part lies. -/
def index (f : Form) : Part → Nat
  | .prim i => 1 + i
  | .ptr i => 1 + f.type.prims + i
  | .link => 1 + f.type.fields
  | .unit i => 1 + f.type.fields + i

/-- Only the units of a tail in a block lie elsewhere. -/
theorem exists_of_not_own (h : ¬ f.Own part) : ∃ i, part = .unit i ∧ f.tail = .outOfLine := by
  simp only [Own, not_forall] at h
  obtain ⟨i, rfl, ht⟩ := h
  refine ⟨i, rfl, ?_⟩
  cases he : f.tail with
  | outOfLine => rfl
  | inline => exact absurd he ht

/-- The link is a part of the object itself. -/
theorem own_link (f : Form) : f.Own .link := fun _ he ↦ by cases he

/-- A plain field is a part of the object itself. -/
theorem own_prim (f : Form) (i : Nat) : f.Own (.prim i) := fun _ he ↦ by cases he

/-- A reference field is a part of the object itself. -/
theorem own_ptr (f : Form) (i : Nat) : f.Own (.ptr i) := fun _ he ↦ by cases he

/-- A part of the object itself lies at its index behind the header. -/
theorem cell_eq_of_own (h : f.Own part) : f.cell m a part = a + f.index part := by
  cases part with
  | prim i => simp only [cell, index]; omega
  | ptr i => simp only [cell, index]; omega
  | link => simp only [cell, index]; omega
  | unit i => simp only [cell, index, unitsAt, h i rfl]; omega

/-- The parts of the object itself come after its header, among the used words. -/
theorem index_lt_used (hp : f.Has part) (h : f.Own part) :
    0 < f.index part ∧ f.index part < f.used := by
  cases part with
  | prim i =>
    have hi : i < f.type.prims := hp
    have := f.fields_lt_used
    simp only [index, TypeInfo.fields] at this ⊢
    omega
  | ptr i =>
    have hi : i < f.type.ptrs := hp
    have := f.fields_lt_used
    simp only [index, TypeInfo.fields] at this ⊢
    omega
  | link =>
    have ht : f.tail = .outOfLine := hp
    simp only [index, used, ht]
    omega
  | unit i =>
    have hi : i < f.size := hp
    simp only [index, used, h i rfl]
    omega

/-- Different parts of the object itself have different indices. -/
theorem index_inj {part' : Part} (hp : f.Has part) (hp' : f.Has part') (h : f.Own part)
    (h' : f.Own part') (he : f.index part = f.index part') : part = part' := by
  cases part <;> cases part' <;>
    simp only [Has, index, TypeInfo.fields, Part.prim.injEq, Part.ptr.injEq, Part.unit.injEq,
      reduceCtorEq] at hp hp' he ⊢ <;> try omega
  · next i => rw [h' _ rfl] at hp; cases hp
  · next i => rw [h _ rfl] at hp'; cases hp'

/-- Every used word behind the header is a part. -/
theorem exists_index_eq {i : Nat} (h₀ : 0 < i) (hi : i < f.used) :
    ∃ part, f.Has part ∧ f.Own part ∧ f.index part = i := by
  by_cases hprim : i ≤ f.type.prims
  · exact ⟨.prim (i - 1), by simp only [Has]; omega, f.own_prim _, by simp only [index]; omega⟩
  · by_cases hptr : i ≤ f.type.prims + f.type.ptrs
    · exact ⟨.ptr (i - 1 - f.type.prims), by simp only [Has]; omega, f.own_ptr _,
        by simp only [index]; omega⟩
    · cases ht : f.tail with
      | inline =>
        simp only [used, ht, TypeInfo.fields] at hi
        exact ⟨.unit (i - 1 - f.type.fields), by simp only [Has, TypeInfo.fields]; omega,
          fun _ _ ↦ ht, by simp only [index, TypeInfo.fields]; omega⟩
      | outOfLine =>
        simp only [used, ht, TypeInfo.fields] at hi
        exact ⟨.link, ht, f.own_link, by simp only [index, TypeInfo.fields]; omega⟩

/-- The parts of an object stay where they are as long as its link does. -/
theorem cell_congr {m' : Memory}
    (h : f.tail = .outOfLine → m'.read (f.cell m a .link) = m.read (f.cell m a .link)) :
    f.cell m' a part = f.cell m a part := by
  cases part with
  | prim i => rfl
  | ptr i => rfl
  | link => rfl
  | unit i =>
    simp only [cell, unitsAt] at h ⊢
    cases ht : f.tail with
    | inline => rfl
    | outOfLine => simp only [h ht]

end Form

namespace Memory

/-- `s` is the span of a direct object of form `f`. -/
def Direct (m : Memory) (table : TypeTable) (os : List Span) (s : Span) (f : Form) : Prop :=
  s ∈ os ∧ m.form? table s.start = some f

/-- A reference to `a` denotes the object at `d`, which a program can name. -/
def Denotes (m : Memory) (table : TypeTable) (os : List Span) (a d : Nat) : Prop :=
  IsObject os a ∧ m.Leads a d ∧ ∃ s f, m.Direct table os s f ∧ s.start = d ∧ ¬ f.IsBlock

/-- A reference to `a` denotes an object that a program can name. -/
def Valid (m : Memory) (table : TypeTable) (os : List Span) (a : Nat) : Prop :=
  ∃ d, m.Denotes table os a d

/-- What holds of the memory of a heap with these objects between two steps of the program. -/
structure WellFormed (m : Memory) (table : TypeTable) (padding : Bool) (os : List Span) : Prop where
  apart : os.Pairwise Span.Apart
  nonempty : ∀ s ∈ os, 0 < s.words
  mapped : ∀ s ∈ os, ∀ i < s.words, m.Mapped (s.start + i)
  /-- Every header is direct with a type, or an indirection to an object. -/
  header : ∀ s ∈ os, (∃ f, m.form? table s.start = some f) ∨
    ∃ a, m.read s.start = (Header.forward (Word.ofAddr a)).word ∧ m.Valid table os a
  /-- A direct object is as long as its header says. -/
  extent : ∀ s f, m.Direct table os s f → s.words = f.words padding
  /-- The word that only rounds the size up is zero. -/
  blank : ∀ s f, m.Direct table os s f → ∀ i, f.used ≤ i → i < s.words → m.read (s.start + i) = 0
  /-- Every reference is null or leads to an object. -/
  reference : ∀ s f, m.Direct table os s f → ∀ part, f.Refers part →
    m.read (f.cell m s.start part) = Word.null ∨
    ∃ a, m.read (f.cell m s.start part) = Word.ofAddr a ∧ m.Valid table os a
  /-- Every link leads to a block of the right size. -/
  block : ∀ s f, m.Direct table os s f → f.tail = .outOfLine → ∃ t g, m.Direct table os t g ∧
    m.read (f.cell m s.start .link) = Word.ofAddr t.start ∧ g.IsBlock ∧ g.size = f.size
  /-- A block belongs to one object. -/
  owner : ∀ s f t g, m.Direct table os s f → m.Direct table os t g →
    f.tail = .outOfLine → g.tail = .outOfLine →
    m.read (f.cell m s.start .link) = m.read (g.cell m t.start .link) → s = t
  /-- A block has no block of its own. -/
  inline : ∀ s f, m.Direct table os s f → f.IsBlock → f.tail = .inline

variable {m m' : Memory} {table : TypeTable} {padding : Bool} {os : List Span} {s t : Span}
  {f g : Form} {part part' : Part} {a d : Nat}

/-- A direct object is one of the objects. -/
theorem Direct.mem (h : m.Direct table os s f) : s ∈ os := h.1

/-- The header of a direct object gives its form. -/
theorem Direct.form? (h : m.Direct table os s f) : m.form? table s.start = some f := h.2

/-- A direct object is no indirection. -/
theorem Direct.hop? (h : m.Direct table os s f) : m.hop? s.start = none := hop?_of_form? h.2

/-- A direct object has one form. -/
theorem Direct.unique (h : m.Direct table os s f) (h' : m.Direct table os s g) : f = g :=
  Option.some.inj (h.2.symm.trans h'.2)

/-- Blocks have the type that is reserved for them. -/
theorem Direct.type_of_isBlock (h : m.Direct table os s f) (hb : f.IsBlock) :
    f.type = .tailBlock := by
  have ht := (form?_eq_some_iff.mp h.2).2
  rw [Form.IsBlock] at hb
  rw [hb] at ht
  exact (Option.some.inj ht).symm

/-- A block holds no references of its own. -/
theorem Direct.not_refers_of_isBlock (h : m.Direct table os s f) (hb : f.IsBlock) :
    ¬ f.Refers part := by
  have ht := h.type_of_isBlock hb
  cases part <;> simp [Form.Refers, ht, TypeInfo.tailBlock]

/-- A reference that denotes an object is valid. -/
theorem Denotes.valid (h : m.Denotes table os a d) : m.Valid table os a := ⟨d, h⟩

/-- A reference resolves to the object that it denotes. -/
theorem Denotes.resolve (h : m.Denotes table os a d) : m.resolve a = d := h.2.1.resolve

/-- A valid reference denotes what it resolves to. -/
theorem Valid.denotes (h : m.Valid table os a) : m.Denotes table os a (m.resolve a) := by
  obtain ⟨d, h⟩ := h
  rwa [h.resolve]

/-- A direct object that is no block is denoted by a reference to it. -/
theorem Direct.denotes (h : m.Direct table os s f) (hb : ¬ f.IsBlock) :
    m.Denotes table os s.start s.start :=
  ⟨.of_mem h.mem, .here h.hop?, s, f, h, rfl, hb⟩

/-- A direct object stays one among more objects. -/
theorem Direct.mono {os' : List Span} (h : m.Direct table os s f) (hs : ∀ s ∈ os, s ∈ os') :
    m.Direct table os' s f := ⟨hs s h.1, h.2⟩

/-- With more objects, a reference still denotes what it did. -/
theorem Denotes.mono {os' : List Span} (h : m.Denotes table os a d) (hs : ∀ s ∈ os, s ∈ os') :
    m.Denotes table os' a d := by
  obtain ⟨⟨t, ht, ha⟩, hl, s, f, hd, hsd⟩ := h
  exact ⟨⟨t, hs t ht, ha⟩, hl, s, f, hd.mono hs, hsd⟩

/-- A valid reference stays valid among more objects. -/
theorem Valid.mono {os' : List Span} (h : m.Valid table os a) (hs : ∀ s ∈ os, s ∈ os') :
    m.Valid table os' a := (h.denotes.mono hs).valid

/-- The order of the objects does not matter. -/
theorem WellFormed.perm {os' : List Span} (hw : m.WellFormed table padding os)
    (hp : os.Perm os') : m.WellFormed table padding os' := by
  have hdir : ∀ {s f}, m.Direct table os' s f → m.Direct table os s f :=
    fun h ↦ h.mono fun _ hs ↦ hp.mem_iff.mpr hs
  have hval : ∀ {a}, m.Valid table os a → m.Valid table os' a :=
    fun h ↦ h.mono fun _ hs ↦ hp.mem_iff.mp hs
  refine ⟨(hp.pairwise_iff fun h ↦ h.symm).mp hw.apart,
    fun s hs ↦ hw.nonempty s (hp.mem_iff.mpr hs), fun s hs ↦ hw.mapped s (hp.mem_iff.mpr hs),
    fun s hs ↦ ?_, fun s f h ↦ hw.extent s f (hdir h),
    fun s f h ↦ hw.blank s f (hdir h), fun s f h part hr ↦ ?_, fun s f h ht ↦ ?_,
    fun s f t g h h' ↦ hw.owner s f t g (hdir h) (hdir h'), fun s f h ↦ hw.inline s f (hdir h)⟩
  · rcases hw.header s (hp.mem_iff.mpr hs) with hf | ⟨a, ha, hv⟩
    · exact .inl hf
    · exact .inr ⟨a, ha, hval hv⟩
  · rcases hw.reference s f (hdir h) part hr with hz | ⟨a, ha, hv⟩
    · exact .inl hz
    · exact .inr ⟨a, ha, hval hv⟩
  · obtain ⟨t, g, hg, hl, hb, hz⟩ := hw.block s f (hdir h) ht
    exact ⟨t, g, hg.mono fun _ hs ↦ hp.mem_iff.mp hs, hl, hb, hz⟩

namespace WellFormed

variable (hw : m.WellFormed table padding os)
include hw

/-- Objects begin where memory is mapped. -/
theorem mapped_start (hs : s ∈ os) : m.Mapped s.start := hw.mapped s hs 0 (hw.nonempty s hs)

/-- Where an object begins, memory is mapped. -/
theorem mapped_of_isObject (h : IsObject os a) : m.Mapped a := by
  obtain ⟨s, hs, rfl⟩ := h
  exact hw.mapped_start hs

/-- Objects begin at addresses that a word can hold. -/
theorem lt_limit (h : IsObject os a) : a < addressLimit :=
  Nat.lt_of_lt_of_le (hw.mapped_of_isObject h).2 m.fits

/-- The reference to an object leads back to it. -/
theorem toAddr_ofAddr (h : IsObject os a) : Word.toAddr (Word.ofAddr a) = a :=
  (hw.mapped_of_isObject h).toAddr_ofAddr

/-- References to two objects differ. -/
theorem ofAddr_inj {b : Nat} (ha : IsObject os a) (hb : IsObject os b)
    (h : Word.ofAddr a = Word.ofAddr b) : a = b := by
  rw [← hw.toAddr_ofAddr ha, h, hw.toAddr_ofAddr hb]

/-- A reference to an object is not null, and leads to it. -/
theorem toRef?_ofAddr (h : IsObject os a) : Word.toRef? (Word.ofAddr a) = some a :=
  (hw.mapped_of_isObject h).toRef?_ofAddr

/-- The link of an object is a reference to its block. -/
theorem toRef?_link (hd : m.Direct table os s f) (ht : f.tail = .outOfLine) :
    ∃ t g, m.Direct table os t g ∧
      Word.toRef? (m.read (f.cell m s.start .link)) = some t.start := by
  obtain ⟨t, g, hg, hl, -⟩ := hw.block s f hd ht
  exact ⟨t, g, hg, hl ▸ hw.toRef?_ofAddr (.of_mem hg.mem)⟩

/-- Spans that have a word in common are the same. -/
theorem eq_of_common (hs : s ∈ os) (ht : t ∈ os) {i j : Nat} (hi : i < s.words)
    (hj : j < t.words) (h : s.start + i = t.start + j) : s = t :=
  Tenure.eq_of_common hw.apart hs ht hi hj h

/-- No two objects begin at one address. -/
theorem eq_of_start (hs : s ∈ os) (ht : t ∈ os) (h : s.start = t.start) : s = t :=
  hw.eq_of_common hs ht (hw.nonempty s hs) (hw.nonempty t ht) h

/-- References to different objects differ. -/
theorem eq_of_ofAddr (hs : s ∈ os) (ht : t ∈ os) (h : Word.ofAddr s.start = Word.ofAddr t.start) :
    s = t := hw.eq_of_start hs ht (hw.ofAddr_inj (.of_mem hs) (.of_mem ht) h)

/-- The used words of an object lie in its span. -/
theorem used_le (h : m.Direct table os s f) : f.used ≤ s.words := by
  rw [hw.extent s f h]
  exact f.used_le_words padding

/-- An indirection leads to a valid reference. -/
theorem valid_of_hop? (hs : IsObject os a) (h : m.hop? a = some d) : m.Valid table os d := by
  obtain ⟨s, hs, rfl⟩ := hs
  rcases hw.header s hs with ⟨f, hf⟩ | ⟨b, hr, hv⟩
  · rw [hop?_of_form? hf] at h
    cases h
  · obtain ⟨_, hb, _⟩ := id hv
    rw [hop?_of_read hr (hw.lt_limit hb)] at h
    cases h
    exact hv

/-- Every object is direct or leads to a direct one. -/
theorem leads_of_mem (hs : s ∈ os) : ∃ t g, m.Leads s.start t.start ∧ m.Direct table os t g := by
  rcases hw.header s hs with ⟨f, hf⟩ | ⟨b, hr, hv⟩
  · exact ⟨s, f, .here (hop?_of_form? hf), hs, hf⟩
  · have hhop := hop?_of_read hr (hw.lt_limit hv.denotes.1)
    obtain ⟨d, -, hl, t, g, hg, rfl, -⟩ := hv
    exact ⟨t, g, .hop hhop hl, hg⟩

/-- The units of a tail in a block lie in the block's span. -/
theorem cell_unit (hd : m.Direct table os s f) (ht : f.tail = .outOfLine) :
    ∃ t g, m.Direct table os t g ∧ g.IsBlock ∧ g.size = f.size ∧
      m.read (f.cell m s.start .link) = Word.ofAddr t.start ∧ g.used = 1 + f.size ∧
      ∀ i, f.cell m s.start (.unit i) = t.start + (1 + i) := by
  obtain ⟨t, g, hg, hl, hb, hs⟩ := hw.block s f hd ht
  refine ⟨t, g, hg, hb, hs, hl, ?_, fun i ↦ ?_⟩
  · simp only [Form.used, hw.inline t g hg hb, hg.type_of_isBlock hb, TypeInfo.fields,
      TypeInfo.tailBlock, hs]
  · simp only [Form.cell] at hl
    simp only [Form.cell, Form.unitsAt, ht, hl, hw.toAddr_ofAddr (.of_mem hg.mem)]
    omega

/-- The form of a block is settled by its size. -/
theorem eq_of_isBlock (hd : m.Direct table os s f) (hb : f.IsBlock) :
    f = ⟨blockTag, f.size, .inline, .tailBlock⟩ := by
  rw [← hd.type_of_isBlock hb, ← hw.inline s f hd hb, ← show f.tag = blockTag from hb]

/-- A part of an object lies in the object itself or in its block, behind the header. -/
theorem cell_host (hd : m.Direct table os s f) (hp : f.Has part) :
    ∃ t g i, m.Direct table os t g ∧ 0 < i ∧ i < g.used ∧ f.cell m s.start part = t.start + i ∧
      (t = s ∧ f.Own part ∧ i = f.index part ∨
        ∃ j, part = .unit j ∧ f.tail = .outOfLine ∧ g.IsBlock ∧ i = 1 + j ∧
          m.read (f.cell m s.start .link) = Word.ofAddr t.start) := by
  by_cases ho : f.Own part
  · obtain ⟨h₀, h₁⟩ := Form.index_lt_used hp ho
    exact ⟨s, f, f.index part, hd, h₀, h₁, Form.cell_eq_of_own ho, .inl ⟨rfl, ho, rfl⟩⟩
  · obtain ⟨j, rfl, ht⟩ := Form.exists_of_not_own ho
    have hj : j < f.size := hp
    obtain ⟨t, g, hg, hb, _, hl, hu, hc⟩ := hw.cell_unit hd ht
    exact ⟨t, g, 1 + j, hg, by omega, by omega, hc j, .inr ⟨j, rfl, ht, hb, rfl, hl⟩⟩

/-- A part of an object is a word of some span, and not the first one. -/
theorem cell_mem (hd : m.Direct table os s f) (hp : f.Has part) :
    ∃ t ∈ os, ∃ i, 0 < i ∧ i < t.words ∧ f.cell m s.start part = t.start + i := by
  obtain ⟨t, g, i, hg, h₀, h₁, hc, _⟩ := hw.cell_host hd hp
  exact ⟨t, hg.mem, i, h₀, Nat.lt_of_lt_of_le h₁ (hw.used_le hg), hc⟩

/-- The parts of an object are mapped. -/
theorem mapped_cell (hd : m.Direct table os s f) (hp : f.Has part) :
    m.Mapped (f.cell m s.start part) := by
  obtain ⟨t, ht, i, _, hi, hc⟩ := hw.cell_mem hd hp
  rw [hc]
  exact hw.mapped t ht i hi

/-- No part of an object is a header. -/
theorem cell_ne_start (hd : m.Direct table os s f) (hp : f.Has part) (ht : t ∈ os) :
    f.cell m s.start part ≠ t.start := by
  obtain ⟨u, hu, i, h₀, hi, hc⟩ := hw.cell_mem hd hp
  intro he
  rw [hc] at he
  have := hw.eq_of_common hu ht hi (hw.nonempty t ht) he
  subst this
  omega

/-- No part of an object only rounds the size of an object up. -/
theorem cell_ne_blank (hd : m.Direct table os s f) (hp : f.Has part) (ht : m.Direct table os t g)
    {i : Nat} (hi : g.used ≤ i) (hi' : i < t.words) : f.cell m s.start part ≠ t.start + i := by
  obtain ⟨u, k, j, hk, _, hj, hc, _⟩ := hw.cell_host hd hp
  intro he
  rw [hc] at he
  have := hw.eq_of_common hk.mem ht.mem (Nat.lt_of_lt_of_le hj (hw.used_le hk)) hi' he
  subst this
  have := hk.unique ht
  subst this
  omega

/-- No word is a part of two objects, but for the units that a block holds for its owner. -/
theorem cell_inj (hd : m.Direct table os s f) (hg : m.Direct table os t g) (hb : ¬ f.IsBlock)
    (hb' : ¬ g.IsBlock) (hp : f.Has part) (hp' : g.Has part')
    (he : f.cell m s.start part = g.cell m t.start part') : s = t ∧ part = part' := by
  obtain ⟨u, k, i, hk, _, hi, hc, ho⟩ := hw.cell_host hd hp
  obtain ⟨u', k', i', hk', _, hi', hc', ho'⟩ := hw.cell_host hg hp'
  have hu : u = u' := by
    apply hw.eq_of_common hk.mem hk'.mem (Nat.lt_of_lt_of_le hi (hw.used_le hk))
      (Nat.lt_of_lt_of_le hi' (hw.used_le hk'))
    rw [← hc, ← hc', he]
  subst hu
  have hii : i = i' := by omega
  obtain rfl := hk.unique hk'
  rcases ho with ⟨rfl, ho, rfl⟩ | ⟨j, rfl, ht, hkb, rfl, hl⟩
  · rcases ho' with ⟨rfl, ho', rfl⟩ | ⟨j', rfl, ht', hkb', rfl, hl'⟩
    · obtain rfl := hd.unique hg
      exact ⟨rfl, Form.index_inj hp hp' ho ho' hii⟩
    · exact absurd ((hd.unique hk) ▸ hkb') hb
  · rcases ho' with ⟨rfl, ho', rfl⟩ | ⟨j', rfl, ht', hkb', hj, hl'⟩
    · exact absurd ((hg.unique hk) ▸ hkb) hb'
    · exact ⟨hw.owner s f t g hd hg ht ht' (hl.trans hl'.symm), by rw [show j = j' by omega]⟩

/-- A block has its units inline. -/
theorem not_isBlock_of_outOfLine (hd : m.Direct table os s f) (ht : f.tail = .outOfLine) :
    ¬ f.IsBlock := by
  intro hb
  rw [hw.inline s f hd hb] at ht
  cases ht

/-- A block has no slots of its own. -/
theorem not_isBlock_of_isSlot (hd : m.Direct table os s f) (hp : f.IsSlot part) :
    ¬ f.IsBlock := by
  rcases hp with hr | ⟨-, ht⟩
  · exact fun hb ↦ hd.not_refers_of_isBlock hb hr
  · exact hw.not_isBlock_of_outOfLine hd ht

/-- What a slot refers to is an object. -/
theorem isObject_of_slot (hd : m.Direct table os s f) (hp : f.IsSlot part)
    (ha : Word.toRef? (m.read (f.cell m s.start part)) = some a) : IsObject os a := by
  rcases hp with hp | ⟨rfl, ht⟩
  · rcases hw.reference s f hd part hp with hz | ⟨b, hb, _, hob, -⟩
    · rw [hz, Word.toRef?_null] at ha
      cases ha
    · rw [hb, hw.toRef?_ofAddr hob] at ha
      cases ha
      exact hob
  · obtain ⟨t, g, hg, hl⟩ := hw.toRef?_link hd ht
    rw [hl] at ha
    cases ha
    exact .of_mem hg.mem

/-- The slots of an object are its slot parts. -/
theorem mem_slots_iff {p : Nat} (hd : m.Direct table os s f) :
    p ∈ (f.slots s.start).list m ↔ ∃ part, f.IsSlot part ∧ p = f.cell m s.start part := by
  refine Form.mem_list_slots fun ht ↦ ?_
  obtain ⟨t, g, hg, hl, -⟩ := hw.block s f hd ht
  rw [hl]
  exact (hw.mapped_start hg.mem).ofAddr_ne_null

/-- The slots that are listed for an object are cells of its slot parts. -/
theorem mem_slots {p : Nat} (hd : m.Direct table os s f)
    (hp : p ∈ (f.slots s.start).list m) : ∃ part, f.IsSlot part ∧ p = f.cell m s.start part :=
  (hw.mem_slots_iff hd).mp hp

end WellFormed

end Memory

end Tenure
