import Tenure.Evacuation
import Tenure.Proofs.WellFormed

/-!
# The origin of a copying pass

A pass moves objects out of its source to the end of its target. Other objects may lie in the
target already, or anywhere else outside the source. The origin is the state before the first step.
Against it a later state is told by the list of the copies made: which object outside the source
stands for which one of the origin, and from which word of the origin each of its words comes. No
more is copied than what is due, which is what the starting points of the pass lead to. Main
statement: `Stands.unique`, every word outside the source belongs to one object at most and stands
for one of the origin.
-/

namespace Tenure

/-- The form of the copy of an object: a compacting pass stores all tails inline. -/
def Evacuation.shape (e : Evacuation) (f : Form) : Form :=
  if f.tail = .outOfLine ∧ e.compact then { f with tail := .inline } else f

/-- The objects copied, each with its copy, in the order in which they were copied. -/
abbrev Copies := List (Span × Span)

/-- Where an object is now. -/
def Copies.current (cs : Copies) (d : Nat) : Nat :=
  match cs.find? (·.1.start = d) with
  | some c => c.2.start
  | none => d

/-- The addresses of the objects copied. -/
def Copies.sources (cs : Copies) : List Nat := cs.map fun c ↦ c.1.start

/-- The state before the first step of a pass. -/
structure Origin where
  pass : Evacuation
  memory : Memory
  target : Region
  /-- The objects of the source. -/
  inside : List Span
  /-- All other objects, in the target or elsewhere. -/
  outside : List Span
  /-- The references with which the pass begins. -/
  starts : List Nat

namespace Origin

variable (o : Origin)

/-- The objects before the pass. -/
def objects : List Span := o.inside ++ o.outside

/-- `s` is the span of a direct object of form `f`. -/
def Object (s : Span) (f : Form) : Prop := o.memory.Direct o.pass.table o.objects s f

/-- The word, if it is read as a reference, does not lead into the source. -/
def Clean (w : Word) : Prop := ∀ a, Word.toRef? w = some a → o.pass.source.contains a = false

/-- The word is a slot of an object. -/
def Slot (q : Nat) : Prop :=
  ∃ s f part, o.Object s f ∧ f.IsSlot part ∧ q = f.cell o.memory s.start part

/-- The objects that a pass comes across: those that it begins with, and those that it finds
referred to by the slots of others. Of an object to be copied, the slots of the copy count. -/
inductive Due : Nat → Prop
  | start {a d : Nat} : a ∈ o.starts → o.memory.Leads a d → Due d
  | slot {s : Span} {f : Form} {part : Part} {a d : Nat} : Due s.start → o.Object s f →
      f.IsSlot part → s ∈ o.outside ∨ (o.pass.shape f).IsSlot part →
      Word.toRef? (o.memory.read (f.cell o.memory s.start part)) = some a →
      o.memory.Leads a d → Due d

/-- The word is a slot, and the object that it refers to is due. -/
def DueSlot (q : Nat) : Prop :=
  o.Slot q ∧ ∀ a d, Word.toRef? (o.memory.read q) = some a → o.memory.Leads a d → o.Due d

/-- The word lies neither in the source nor in the part of the target that is not in use. -/
def Aside (a : Nat) : Prop :=
  o.pass.source.contains a = false ∧
    (o.target.contains a = true → a < o.target.start + o.target.cursor)

/-- What a pass needs of its origin. -/
structure Sound : Prop where
  wellFormed : o.memory.WellFormed o.pass.table o.pass.padding o.objects
  /-- The objects of the source lie in its used part. -/
  inside : ∀ s ∈ o.inside, o.pass.source.start ≤ s.start ∧
    s.stop ≤ o.pass.source.start + o.pass.source.cursor
  outside : ∀ s ∈ o.outside, ∀ i < s.words, o.Aside (s.start + i)
  /-- Source and target have no word in common. -/
  apart : ∀ a, o.pass.source.contains a = true → o.target.contains a = false
  mapped : ∀ i < o.target.capacity, o.memory.Mapped (o.target.start + i)
  vacant : ∀ i, o.target.cursor ≤ i → i < o.target.capacity →
    o.memory.read (o.target.start + i) = 0
  /-- No link leads out of the source or into it. -/
  links : ∀ s f, o.Object s f → f.tail = .outOfLine →
    (o.Clean (o.memory.read (f.cell o.memory s.start .link)) ↔
      o.pass.source.contains s.start = false)
  /-- A pass begins with objects that a program can name or with objects outside the source. -/
  starts : ∀ a ∈ o.starts, o.memory.Valid o.pass.table o.objects a ∨ IsObject o.outside a

/-- The objects outside the source are those of the target, one behind the other. -/
def Filled : Prop := Tiles o.outside o.target.start (o.target.start + o.target.cursor)

/-- `t`, with form `g`, stands outside the source for the object `s` of form `f`. -/
inductive Stands (cs : Copies) : (s t : Span) → (f g : Form) → Prop
  | stays {s : Span} {f : Form} : s ∈ o.outside → o.Object s f → Stands cs s s f f
  | copied {s t : Span} {f : Form} : (s, t) ∈ cs → o.Object s f → Stands cs s t f (o.pass.shape f)

/-- Word `p` comes from word `q` of the origin, as the same part of an object outside the source. -/
def Comes (cs : Copies) (q p : Nat) : Prop :=
  ∃ s t f g part, o.Stands cs s t f g ∧ g.Has part ∧ g.Own part ∧
    q = f.cell o.memory s.start part ∧ p = t.start + g.index part

/-- The copies are of different objects of the source, which are due, and have the right sizes. -/
structure Selection (cs : Copies) : Prop where
  object : ∀ c ∈ cs, c.1 ∈ o.inside ∧
    ∃ f, o.Object c.1 f ∧ c.2.words = (o.pass.shape f).words o.pass.padding
  due : ∀ c ∈ cs, o.Due c.1.start
  once : cs.Pairwise fun c c' ↦ c.1 ≠ c'.1

/-- The copies are those of a pass that has filled the target up to `stop`. -/
structure Plan (cs : Copies) (stop : Nat) : Prop extends Selection o cs where
  tiles : Tiles (cs.map Prod.snd) (o.target.start + o.target.cursor) stop
  fits : stop ≤ o.target.start + o.target.capacity

end Origin

/-! ### Shapes -/

/-- An inline tail is copied as it is. -/
theorem Evacuation.shape_of_inline {e : Evacuation} {f : Form} (h : f.tail = .inline) :
    e.shape f = f := by
  simp only [shape, h, reduceCtorEq, false_and, if_false]

/-- A pass that does not compact copies every tail as it is. -/
theorem Evacuation.shape_of_keeping {e : Evacuation} {f : Form} (h : e.compact = false) :
    e.shape f = f := by
  simp only [shape, h, Bool.false_eq_true, and_false, if_false]

/-- A copy has the tag of the object. -/
@[simp] theorem Evacuation.tag_shape (e : Evacuation) (f : Form) : (e.shape f).tag = f.tag := by
  unfold shape
  split <;> rfl

/-- A copy has as many units as the object. -/
@[simp] theorem Evacuation.size_shape (e : Evacuation) (f : Form) : (e.shape f).size = f.size := by
  unfold shape
  split <;> rfl

/-- A copy is of the type of the object. -/
@[simp] theorem Evacuation.type_shape (e : Evacuation) (f : Form) : (e.shape f).type = f.type := by
  unfold shape
  split <;> rfl

/-- A copy has its tail in a block only if the object has and the pass is not compacting. -/
theorem Evacuation.tail_shape_eq_outOfLine_iff {e : Evacuation} {f : Form} :
    (e.shape f).tail = .outOfLine ↔ f.tail = .outOfLine ∧ e.compact = false := by
  unfold shape
  split
  · next h => simp only [reduceCtorEq, h.1, h.2, Bool.true_eq_false, and_false]
  · next h =>
    constructor
    · intro ht
      refine ⟨ht, ?_⟩
      cases hc : e.compact with
      | false => rfl
      | true => exact absurd ⟨ht, hc⟩ h
    · exact fun h ↦ h.1

/-- A copy with its tail in a block has the form of its object. -/
theorem Evacuation.shape_of_outOfLine {e : Evacuation} {f : Form}
    (h : (e.shape f).tail = .outOfLine) : e.shape f = f := by
  rw [tail_shape_eq_outOfLine_iff] at h
  rw [shape, if_neg]
  rintro ⟨-, hc⟩
  rw [h.2] at hc
  cases hc

/-- The copy is a block just if the object is one. -/
@[simp] theorem Evacuation.isBlock_shape {e : Evacuation} {f : Form} :
    (e.shape f).IsBlock ↔ f.IsBlock := by
  simp only [Form.IsBlock, tag_shape]

/-- The same parts of the copy hold references. -/
@[simp] theorem Evacuation.refers_shape {e : Evacuation} {f : Form} {part : Part} :
    (e.shape f).Refers part ↔ f.Refers part := by
  cases part <;> simp only [Form.Refers, type_shape, size_shape]

/-- A copy has the parts of its object, but perhaps not the link. -/
theorem Evacuation.has_of_shape {e : Evacuation} {f : Form} {part : Part}
    (h : (e.shape f).Has part) : f.Has part := by
  cases part with
  | prim i => simpa only [Form.Has, type_shape] using h
  | ptr i => simpa only [Form.Has, type_shape] using h
  | link => exact (tail_shape_eq_outOfLine_iff.mp h).1
  | unit i => simpa only [Form.Has, size_shape] using h

/-- A copy has the parts of the object, the link left aside. -/
theorem Evacuation.has_shape {e : Evacuation} {f : Form} {part : Part} (h : f.Has part)
    (hl : part ≠ .link) : (e.shape f).Has part := by
  cases part with
  | prim i => simpa only [Form.Has, type_shape] using h
  | ptr i => simpa only [Form.Has, type_shape] using h
  | link => exact absurd rfl hl
  | unit i => simpa only [Form.Has, size_shape] using h

/-- A slot of the copy is one of the object. -/
theorem Evacuation.isSlot_of_shape {e : Evacuation} {f : Form} {part : Part}
    (h : (e.shape f).IsSlot part) : f.IsSlot part := by
  rcases h with h | ⟨rfl, h⟩
  · exact .inl (refers_shape.mp h)
  · exact .inr ⟨rfl, (tail_shape_eq_outOfLine_iff.mp h).1⟩

/-! ### Where objects are now -/

namespace Copies

variable {cs cs' : Copies} {s t : Span} {d : Nat}

/-- An object that was not copied is where it was. -/
theorem current_of_forall_ne (h : ∀ c ∈ cs, c.1.start ≠ d) : cs.current d = d := by
  have hn : cs.find? (·.1.start = d) = none := by
    rw [List.find?_eq_none]
    intro c hc
    simpa using h c hc
  simp only [current, hn]

/-- An object was copied, or it is where it was. -/
theorem current_cases (cs : Copies) (d : Nat) :
    (∃ s t, (s, t) ∈ cs ∧ s.start = d ∧ cs.current d = t.start) ∨
      (∀ c ∈ cs, c.1.start ≠ d) ∧ cs.current d = d := by
  by_cases h : ∀ c ∈ cs, c.1.start ≠ d
  · exact .inr ⟨h, current_of_forall_ne h⟩
  · left
    unfold current
    cases hf : cs.find? (·.1.start = d) with
    | none =>
      rw [List.find?_eq_none] at hf
      exact absurd (fun c hc ↦ by simpa using hf c hc) h
    | some c =>
      exact ⟨c.1, c.2, List.mem_of_find?_eq_some hf, by simpa using List.find?_some hf, rfl⟩

/-- Later copies are of other objects. -/
theorem current_append_of_mem (h : ∃ c ∈ cs, c.1.start = d) :
    (cs ++ cs').current d = cs.current d := by
  obtain ⟨c, hc, hd⟩ := h
  have hs : (cs.find? (·.1.start = d)).isSome := by
    rw [List.find?_isSome]
    exact ⟨c, hc, by simpa using hd⟩
  unfold current
  rw [List.find?_append]
  cases hf : cs.find? (·.1.start = d) with
  | none => rw [hf] at hs; cases hs
  | some c => rfl

end Copies

namespace Origin

variable {o : Origin} {cs : Copies} {s s' t t' : Span} {f f' g g' : Form} {a i j p q q' stop : Nat}

/-! ### The objects of the origin -/

/-- The objects lie in the source or outside. -/
theorem mem_objects : s ∈ o.objects ↔ s ∈ o.inside ∨ s ∈ o.outside := List.mem_append

/-- The header of an object gives its form. -/
theorem Object.form? (h : o.Object s f) : o.memory.form? o.pass.table s.start = some f :=
  Memory.Direct.form? h

/-- An object has one form. -/
theorem Object.unique (h : o.Object s f) (h' : o.Object s f') : f = f' := Memory.Direct.unique h h'

section Sound

variable (ho : o.Sound)
include ho

/-- The objects of the source lie in the source. -/
theorem Sound.contains_inside (hs : s ∈ o.inside) (hi : i < s.words) :
    o.pass.source.contains (s.start + i) = true := by
  have hm := ho.inside s hs
  have hc := o.pass.source.cursor_le
  simp only [Span.stop] at hm
  exact Region.mem_iff.mpr ⟨by omega, by omega⟩

/-- Each object of the source has a word. -/
theorem Sound.nonempty_inside (hs : s ∈ o.inside) : 0 < s.words :=
  ho.wellFormed.nonempty s (mem_objects.mpr (.inl hs))

/-- Each object outside the source has a word. -/
theorem Sound.nonempty_outside (hs : s ∈ o.outside) : 0 < s.words :=
  ho.wellFormed.nonempty s (mem_objects.mpr (.inr hs))

/-- No object outside the source begins in it. -/
theorem Sound.not_contains_outside (hs : s ∈ o.outside) :
    o.pass.source.contains s.start = false :=
  (ho.outside s hs 0 (ho.nonempty_outside hs)).1

/-- No word of an object outside the source is one of those that copies take. -/
theorem Sound.ne_vacant (hs : s ∈ o.outside) (hi : i < s.words) (hj : o.target.cursor ≤ j)
    (hj' : j < o.target.capacity) : s.start + i ≠ o.target.start + j := by
  intro he
  have hlt := (ho.outside s hs i hi).2
  rw [he] at hlt
  have := hlt (Region.mem_iff.mpr ⟨by omega, by omega⟩)
  omega

/-- The target has no word of the source. -/
theorem Sound.not_contains_target (h : o.target.contains a = true) :
    o.pass.source.contains a = false := by
  cases hs : o.pass.source.contains a with
  | false => rfl
  | true => rw [ho.apart a hs] at h; cases h

/-- An object lies in the source if it is one of those inside. -/
theorem Sound.contains_iff (hs : s ∈ o.objects) :
    o.pass.source.contains s.start = true ↔ s ∈ o.inside := by
  have hn := ho.wellFormed.nonempty s hs
  constructor
  · intro hc
    rcases mem_objects.mp hs with h | h
    · exact h
    · rw [ho.not_contains_outside h] at hc
      cases hc
  · exact fun h ↦ ho.contains_inside h hn

/-- The objects outside the source are those that do not begin in it. -/
theorem Sound.not_contains_iff (hs : s ∈ o.objects) :
    o.pass.source.contains s.start = false ↔ s ∈ o.outside := by
  rw [← Bool.not_eq_true, ho.contains_iff hs]
  constructor
  · exact fun h ↦ (mem_objects.mp hs).resolve_left h
  · intro h hi
    have hc := (ho.contains_iff hs).mpr hi
    rw [ho.not_contains_outside h] at hc
    cases hc

/-- No object lies both in the source and outside. -/
theorem Sound.not_mem_outside (hs : s ∈ o.inside) : s ∉ o.outside := by
  intro ho'
  have hi := (ho.contains_iff (mem_objects.mpr (.inl hs))).mpr hs
  rw [(ho.not_contains_iff (mem_objects.mpr (.inr ho'))).mpr ho'] at hi
  cases hi

/-- A reference to an object leads to it. -/
theorem Sound.toAddr_ofAddr (ha : IsObject o.objects a) : Word.toAddr (Word.ofAddr a) = a :=
  ho.wellFormed.toAddr_ofAddr ha

omit ho in
/-- A reference is clean just if its address lies outside the source. -/
theorem clean_ofAddr (ha : Word.toRef? (Word.ofAddr a) = some a) :
    o.Clean (Word.ofAddr a) ↔ o.pass.source.contains a = false := by
  simp only [Clean, ha, Option.some.injEq, forall_eq']

/-- The word for the block of an object leads to a block that lies with it. -/
theorem Sound.block (hs : o.Object s f) (hf : f.tail = .outOfLine) :
    ∃ b k, o.Object b k ∧ k.IsBlock ∧ k.tail = .inline ∧ k.size = f.size ∧
      o.memory.read (f.cell o.memory s.start .link) = Word.ofAddr b.start ∧
      (b ∈ o.inside ↔ s ∈ o.inside) ∧
      ∀ i, f.cell o.memory s.start (.unit i) = k.cell o.memory b.start (.unit i) := by
  obtain ⟨b, k, hk, hb, hz, hl, -, hc⟩ := ho.wellFormed.cell_unit hs hf
  have hin := ho.wellFormed.inline b k hk hb
  refine ⟨b, k, hk, hb, hin, hz, hl, ?_, fun i ↦ ?_⟩
  · have h := ho.links s f hs hf
    rw [hl, clean_ofAddr (ho.wellFormed.toRef?_ofAddr (.of_mem hk.mem))] at h
    rw [← ho.contains_iff hk.mem, ← ho.contains_iff hs.mem, ← Bool.not_eq_false,
      ← Bool.not_eq_false, h]
  · rw [hc, Form.cell, Form.unitsAt, hin, hk.type_of_isBlock hb]
    simp only [TypeInfo.fields, TypeInfo.tailBlock]
    omega

/-- A slot is null or refers to an object. -/
theorem Sound.slot (hq : o.Slot q) : o.memory.read q = Word.null ∨
    ∃ a s f, o.memory.read q = Word.ofAddr a ∧ IsObject o.objects a ∧ o.Object s f ∧
      o.memory.Leads a s.start := by
  obtain ⟨s, f, part, hs, hp, rfl⟩ := hq
  rcases hp with hp | ⟨rfl, hf⟩
  · rcases ho.wellFormed.reference s f hs part hp with h | ⟨a, h, d, ha, hl, t, g, ht, rfl, -⟩
    · exact .inl h
    · exact .inr ⟨a, t, g, h, ha, ht, hl⟩
  · obtain ⟨b, k, hk, -, -, -, hl, -, -⟩ := ho.block hs hf
    exact .inr ⟨b.start, b, k, hl, .of_mem hk.mem, hk, .here hk.hop?⟩

/-- A part that holds a plain word is no slot. -/
theorem Sound.not_slot {part : Part} (hs : o.Object s f) (hb : ¬ f.IsBlock) (hp : f.Has part)
    (hl : part ≠ .link) (hr : ¬ f.Refers part) : ¬ o.Slot (f.cell o.memory s.start part) := by
  rintro ⟨s', f', part', hs', hp', he⟩
  have hb' := ho.wellFormed.not_isBlock_of_isSlot hs' hp'
  obtain ⟨rfl, rfl⟩ := ho.wellFormed.cell_inj hs hs' hb hb' hp hp'.has he
  obtain rfl := hs.unique hs'
  exact hp'.elim hr fun h ↦ hl h.1

end Sound

/-! ### The objects outside the source -/

/-- What something stands for is an object. -/
theorem Stands.object (h : o.Stands cs s t f g) : o.Object s f := by
  cases h with
  | stays _ h => exact h
  | copied _ h => exact h

/-- A slot of what stands for an object is one of the object. -/
theorem Stands.isSlot {part : Part} (h : o.Stands cs s t f g) (hp : g.IsSlot part) :
    f.IsSlot part := by
  cases h with
  | stays => exact hp
  | copied => exact Evacuation.isSlot_of_shape hp

/-- What the slots of an object refer to is due if the object is. -/
theorem Stands.dueSlot {part : Part} (h : o.Stands cs s t f g) (hd : o.Due s.start)
    (hp : g.IsSlot part) : o.DueSlot (f.cell o.memory s.start part) := by
  refine ⟨⟨s, f, part, h.object, h.isSlot hp, rfl⟩, fun a d ha hl ↦ ?_⟩
  refine .slot hd h.object (h.isSlot hp) ?_ ha hl
  cases h with
  | stays hs _ => exact .inl hs
  | copied => exact .inr hp

/-- What stands for an object is a block just if the object is one. -/
theorem Stands.isBlock_iff (h : o.Stands cs s t f g) : g.IsBlock ↔ f.IsBlock := by
  cases h with
  | stays => rfl
  | copied => exact Evacuation.isBlock_shape

/-- The same parts of what stands for an object hold references. -/
theorem Stands.refers_iff {part : Part} (h : o.Stands cs s t f g) :
    g.Refers part ↔ f.Refers part := by
  cases h with
  | stays => rfl
  | copied => exact Evacuation.refers_shape

/-- An object whose tail is in a block stands for one of the same form. -/
theorem Stands.form_eq (h : o.Stands cs s t f g) (hg : g.tail = .outOfLine) : g = f := by
  cases h with
  | stays => rfl
  | copied => exact Evacuation.shape_of_outOfLine hg

/-- What stands for an object does so after more copies. -/
theorem Stands.mono {cs' : Copies} (h : o.Stands cs s t f g) (hc : ∀ c ∈ cs, c ∈ cs') :
    o.Stands cs' s t f g := by
  cases h with
  | stays hs ho => exact .stays hs ho
  | copied hs ho => exact .copied (hc _ hs) ho

/-- A word comes from the same one after more copies. -/
theorem Comes.mono {cs' : Copies} (h : o.Comes cs q p) (hc : ∀ c ∈ cs, c ∈ cs') :
    o.Comes cs' q p := by
  obtain ⟨s, t, f, g, part, hs, hp⟩ := h
  exact ⟨s, t, f, g, part, hs.mono hc, hp⟩

/-- One more object may be selected. -/
theorem Selection.append (h : o.Selection cs) (hi : s ∈ o.inside) (hf : o.Object s f)
    (hd : o.Due s.start) (hw : ∀ c ∈ cs, c.1 ≠ s)
    (ht : t.words = (o.pass.shape f).words o.pass.padding) : o.Selection (cs ++ [(s, t)]) := by
  refine ⟨fun c hc ↦ ?_, fun c hc ↦ ?_, ?_⟩
  · rcases List.mem_append.mp hc with hc | hc
    · exact h.object c hc
    · obtain rfl := List.mem_singleton.mp hc
      exact ⟨hi, f, hf, ht⟩
  · rcases List.mem_append.mp hc with hc | hc
    · exact h.due c hc
    · obtain rfl := List.mem_singleton.mp hc
      exact hd
  · refine List.pairwise_append.mpr ⟨h.once, List.pairwise_singleton .., fun c hc c' hc' ↦ ?_⟩
    obtain rfl := List.mem_singleton.mp hc'
    exact hw c hc

section Plan

variable (ho : o.Sound) (hp : o.Plan cs stop)
include ho hp

omit ho in
/-- Each copy has a word, and lies between the old cursor and the new one. -/
theorem Plan.copy_mem {c : Span × Span} (hc : c ∈ cs) :
    o.target.start + o.target.cursor ≤ c.2.start ∧ c.2.stop ≤ stop ∧ 0 < c.2.words :=
  hp.tiles.mem (List.mem_map.mpr ⟨c, hc, rfl⟩)

omit ho in
/-- A copy lies in what was the unused part of the target. -/
theorem Plan.exists_vacant {c : Span × Span} (hc : c ∈ cs) (hi : i < c.2.words) :
    ∃ j, o.target.cursor ≤ j ∧ j < o.target.capacity ∧ o.target.start + j < stop ∧
      c.2.start + i = o.target.start + j := by
  have hm := hp.copy_mem hc
  have hf := hp.fits
  simp only [Span.stop] at hm
  exact ⟨c.2.start + i - o.target.start, by omega, by omega, by omega, by omega⟩

/-- What stands for an object does not lie in the source. -/
theorem Stands.not_contains (h : o.Stands cs s t f g) (hi : i < t.words) :
    o.pass.source.contains (t.start + i) = false := by
  cases h with
  | stays hs _ => exact (ho.outside s hs i hi).1
  | copied hc _ =>
    obtain ⟨j, -, hj, -, he⟩ := hp.exists_vacant hc hi
    have he : t.start + i = o.target.start + j := he
    rw [he]
    exact ho.not_contains_target (Region.mem_iff.mpr ⟨by omega, by omega⟩)

/-- What stands for an object lies in the memory. -/
theorem Stands.mapped (h : o.Stands cs s t f g) (hi : i < t.words) :
    o.memory.Mapped (t.start + i) := by
  cases h with
  | stays _ hf => exact ho.wellFormed.mapped s hf.mem i hi
  | copied hc _ =>
    obtain ⟨j, -, hj, -, he⟩ := hp.exists_vacant hc hi
    have he : t.start + i = o.target.start + j := he
    rw [he]
    exact ho.mapped j hj

/-- What stands for an object does not lie in the part of the target that is not in use. -/
theorem Stands.ne_vacant (h : o.Stands cs s t f g) (hi : i < t.words)
    (hj : stop ≤ o.target.start + j) (hj' : j < o.target.capacity) :
    t.start + i ≠ o.target.start + j := by
  cases h with
  | stays hs _ =>
    have hle := hp.tiles.le
    exact ho.ne_vacant hs hi (by omega) hj'
  | copied hc _ =>
    obtain ⟨k, -, -, hk, he⟩ := hp.exists_vacant hc hi
    have he : t.start + i = o.target.start + k := he
    omega

/-- What stands for an object takes the words of its form. -/
theorem Stands.words_eq (h : o.Stands cs s t f g) : t.words = g.words o.pass.padding := by
  cases h with
  | stays _ hf => exact ho.wellFormed.extent s f hf
  | copied hc hf =>
    obtain ⟨-, f', hf', hw⟩ := hp.object _ hc
    rw [hw, hf.unique hf']

/-- What stands for an object has a word. -/
theorem Stands.words_pos (h : o.Stands cs s t f g) : 0 < t.words := by
  rw [h.words_eq ho hp]
  exact g.words_pos _

/-- What stands for an object has room for the used words of its form. -/
theorem Stands.used_le (h : o.Stands cs s t f g) : g.used ≤ t.words := by
  rw [h.words_eq ho hp]
  exact g.used_le_words _

omit ho in
private theorem eq_of_snd {c c' : Span × Span} (hc : c ∈ cs) (hc' : c' ∈ cs) (hi : i < c.2.words)
    (hj : j < c'.2.words) (he : c.2.start + i = c'.2.start + j) : c = c' := by
  have ha := List.pairwise_map.mp hp.tiles.pairwise
  obtain ⟨n, hn, rfl⟩ := List.getElem_of_mem hc
  obtain ⟨k, hk, rfl⟩ := List.getElem_of_mem hc'
  rw [List.pairwise_iff_getElem] at ha
  rcases Nat.lt_trichotomy n k with hlt | rfl | hlt
  · have := ha n k hn hk hlt
    simp only [Span.Apart, Span.stop] at this
    omega
  · rfl
  · have := ha k n hk hn hlt
    simp only [Span.Apart, Span.stop] at this
    omega

omit ho in
/-- Nothing was copied twice. -/
theorem Plan.nodup : cs.Nodup :=
  hp.once.imp fun hne he ↦ hne (congrArg Prod.fst he)

omit hp in
/-- What stands for an object of the source is its copy. -/
theorem Stands.mem_of_inside (h : o.Stands cs s t f g) (hi : s ∈ o.inside) :
    (s, t) ∈ cs ∧ g = o.pass.shape f := by
  cases h with
  | stays hs _ => exact absurd hs (ho.not_mem_outside hi)
  | copied hc _ => exact ⟨hc, rfl⟩

/-- An object that was outside the source already stands for itself. -/
theorem Stands.eq_of_outside (h : o.Stands cs s t f g) (hs : s ∈ o.outside) : t = s := by
  cases h with
  | stays => rfl
  | copied hc _ => exact absurd hs (ho.not_mem_outside (hp.object _ hc).1)

/-- A word outside the source belongs to one object at most, which stands for one of the origin. -/
theorem Stands.unique (h : o.Stands cs s t f g) (h' : o.Stands cs s' t' f' g') (hi : i < t.words)
    (hj : j < t'.words) (he : t.start + i = t'.start + j) :
    s = s' ∧ t = t' ∧ f = f' ∧ g = g' := by
  cases h with
  | stays hs hf =>
    cases h' with
    | stays hs' hf' =>
      obtain rfl := ho.wellFormed.eq_of_common hf.mem hf'.mem hi hj he
      exact ⟨rfl, rfl, hf.unique hf', hf.unique hf'⟩
    | copied hc' hf' =>
      obtain ⟨k, hk, hk', -, he'⟩ := hp.exists_vacant hc' hj
      exact absurd (he.trans he') (ho.ne_vacant hs hi hk hk')
  | copied hc hf =>
    cases h' with
    | stays hs' hf' =>
      obtain ⟨k, hk, hk', -, he'⟩ := hp.exists_vacant hc hi
      exact absurd (he.symm.trans he') (ho.ne_vacant hs' hj hk hk')
    | copied hc' hf' =>
      obtain ⟨rfl, rfl⟩ := Prod.mk.inj (eq_of_snd hp hc hc' hi hj he)
      obtain rfl := hf.unique hf'
      exact ⟨rfl, rfl, rfl, rfl⟩

/-- An object is copied once. -/
theorem Plan.eq_of_fst {c c' : Span × Span} (hc : c ∈ cs) (hc' : c' ∈ cs)
    (he : c.1.start = c'.1.start) : c = c' := by
  have hs : c.1 = c'.1 := by
    refine ho.wellFormed.eq_of_start ?_ ?_ he
    · exact mem_objects.mpr (.inl (hp.object c hc).1)
    · exact mem_objects.mpr (.inl (hp.object c' hc').1)
  obtain ⟨n, hn, rfl⟩ := List.getElem_of_mem hc
  obtain ⟨k, hk, rfl⟩ := List.getElem_of_mem hc'
  have ho := List.pairwise_iff_getElem.mp hp.once
  rcases Nat.lt_trichotomy n k with hlt | rfl | hlt
  · exact absurd hs (ho n k hn hk hlt)
  · rfl
  · exact absurd hs.symm (ho k n hk hn hlt)

/-- A copied object is where its copy is. -/
theorem Plan.current_of_mem (hc : (s, t) ∈ cs) : cs.current s.start = t.start := by
  rcases cs.current_cases s.start with ⟨s', t', hc', he, h⟩ | ⟨h, _⟩
  · have := hp.eq_of_fst ho hc hc' he.symm
    rw [h, (Prod.mk.inj this).2]
  · exact absurd rfl (h _ hc)

/-- What does not lie in the source is where it was. -/
theorem Plan.current_of_not_contains (hd : o.pass.source.contains d = false) :
    cs.current d = d := by
  refine Copies.current_of_forall_ne fun c hc he ↦ ?_
  have hi := (hp.object c hc).1
  rw [← he, (ho.contains_iff (mem_objects.mpr (.inl hi))).mpr hi] at hd
  cases hd

/-- What stands for an object is where the object is now. -/
theorem Stands.current_eq (h : o.Stands cs s t f g) : cs.current s.start = t.start := by
  cases h with
  | stays hs hf =>
    exact hp.current_of_not_contains ho ((ho.not_contains_iff hf.mem).mpr hs)
  | copied hc _ => exact hp.current_of_mem ho hc

/-- An object that is outside the source now is stood for. -/
theorem Plan.stands (hf : o.Object s f) (hn : o.pass.source.contains (cs.current s.start) = false) :
    ∃ t g, o.Stands cs s t f g ∧ t.start = cs.current s.start := by
  rcases cs.current_cases s.start with ⟨s', t, hc, he, h⟩ | ⟨_, h⟩
  · have hs' : s' = s :=
      ho.wellFormed.eq_of_start (mem_objects.mpr (.inl (hp.object _ hc).1)) hf.mem he
    subst hs'
    exact ⟨t, _, .copied hc hf, h.symm⟩
  · rw [h] at hn ⊢
    exact ⟨s, f, .stays ((ho.not_contains_iff hf.mem).mp hn) hf, rfl⟩

/-- An object that is in the source now was not copied. -/
theorem Plan.waiting (hf : o.Object s f) (hn : o.pass.source.contains (cs.current s.start) = true) :
    s ∈ o.inside ∧ cs.current s.start = s.start ∧ ∀ c ∈ cs, c.1 ≠ s := by
  rcases cs.current_cases s.start with ⟨s', t, hc, he, h⟩ | ⟨h, hcur⟩
  · obtain ⟨-, k, hk, -⟩ := hp.object _ hc
    have hst : o.Stands cs s' t k _ := .copied hc hk
    have := hst.not_contains ho hp (hst.words_pos ho hp)
    rw [Nat.add_zero, ← h, hn] at this
    cases this
  · rw [hcur] at hn
    exact ⟨(ho.contains_iff hf.mem).mp hn, hcur, fun c hc he ↦ h c hc (by rw [he])⟩

/-- No two objects are at one place. -/
theorem Plan.current_inj (hf : o.Object s f) (hf' : o.Object s' f')
    (he : cs.current s.start = cs.current s'.start) : s = s' := by
  cases hn : o.pass.source.contains (cs.current s.start) with
  | true =>
    obtain ⟨-, h, -⟩ := hp.waiting ho hf hn
    obtain ⟨-, h', -⟩ := hp.waiting ho hf' (he ▸ hn)
    rw [h, h'] at he
    exact ho.wellFormed.eq_of_start hf.mem hf'.mem he
  | false =>
    obtain ⟨t, g, ht, h⟩ := hp.stands ho hf hn
    obtain ⟨t', g', ht', h'⟩ := hp.stands ho hf' (he ▸ hn)
    refine (ht.unique ho hp ht' (ht.words_pos ho hp) (ht'.words_pos ho hp) ?_).1
    rw [h, h', he]

/-- A word comes from one word of the origin. -/
theorem Comes.unique (h : o.Comes cs q p) (h' : o.Comes cs q' p) : q = q' := by
  obtain ⟨s, t, f, g, part, hs, hpt, hown, rfl, hp₁⟩ := h
  obtain ⟨s', t', f', g', part', hs', hpt', hown', rfl, hp₂⟩ := h'
  have hi := (Form.index_lt_used hpt hown).2
  have hi' := (Form.index_lt_used hpt' hown').2
  have hu := hs.used_le ho hp
  have hu' := hs'.used_le ho hp
  obtain ⟨rfl, rfl, rfl, rfl⟩ := hs.unique ho hp hs' (by omega) (by omega) (hp₁.symm.trans hp₂)
  have := Form.index_inj hpt hpt' hown hown' (by omega)
  rw [this]

end Plan

end Origin

end Tenure
