import Tenure.Proofs.Sweeps

/-!
# The enumeration of slots

A consumer is handed the slots of an object one after the other, and may change the memory as it is
handed them. Only the units of a block are looked for meanwhile: after the link was handed over, so
they are those of the block that the link refers to then. Main statement: `slots_exact`, which words
a consumer is handed and in which order, and what a scan makes of an object by it.
-/

namespace Tenure

namespace Form

/-- The slots that lie in the object itself whatever its units hold: its reference fields and then
its link. -/
def fixedSlots (f : Form) (a : Nat) : List Nat :=
  List.range' (a + 1 + f.type.prims) f.type.ptrs ++
    match f.tail with
    | .inline => []
    | .outOfLine => [a + 1 + f.type.fields]

/-- The slots among the units of the tail, in the memory in which they are looked for. -/
def unitSlots (f : Form) (m : Memory) (a : Nat) : List Nat :=
  match f.type.units with
  | .words => []
  | .refs =>
    match f.tail with
    | .inline => List.range' (a + 1 + f.type.fields) f.size
    | .outOfLine =>
      match Word.toRef? (m.read (a + 1 + f.type.fields)) with
      | none => []
      | some b => List.range' (b + 1) f.size

/-- In the memory the link of the object refers to a block, if to anything, that lies apart from the
object. -/
def LinkedApart (f : Form) (padding : Bool) (m : Memory) (a : Nat) : Prop :=
  f.tail = .outOfLine → ∀ b, Word.toRef? (m.read (a + 1 + f.type.fields)) = some b →
    Span.Apart ⟨a, f.words padding⟩ ⟨b, f.block.words padding⟩

/-- The words are the slots of the object, each listed once, and no other words of it or of its
block are among them. -/
structure ListsSlots (f : Form) (padding : Bool) (m : Memory) (a : Nat) (ps : List Nat) : Prop where
  nodup : ps.Nodup
  mem_iff : ∀ p, p ∈ ps ↔ (∃ i < f.type.ptrs, p = f.cell m a (.ptr i)) ∨
    f.tail = .outOfLine ∧ p = f.cell m a .link ∨
    f.type.units = .refs ∧ (f.tail = .outOfLine → m.read (f.cell m a .link) ≠ Word.null) ∧
      ∃ i < f.size, p = f.cell m a (.unit i)
  header : a ∉ ps
  prims : ∀ i < f.type.prims, f.cell m a (.prim i) ∉ ps
  plainUnits : f.type.units = .words →
    (f.tail = .outOfLine → m.read (f.cell m a .link) ≠ Word.null) →
    ∀ i < f.size, f.cell m a (.unit i) ∉ ps
  rounding : ∀ i, f.used ≤ i → i < f.words padding → a + i ∉ ps
  block : f.tail = .outOfLine → ∀ b, Word.toRef? (m.read (f.cell m a .link)) = some b →
    b ∉ ps ∧ ∀ i, f.block.used ≤ i → i < f.block.words padding → b + i ∉ ps

/-! ### The list -/

variable {f : Form} {m : Memory} {a p : Nat} {padding : Bool}

private theorem mem_fixedSlots : p ∈ f.fixedSlots a ↔
    (∃ i < f.type.ptrs, p = f.cell m a (.ptr i)) ∨ f.tail = .outOfLine ∧ p = f.cell m a .link := by
  rw [fixedSlots, List.mem_append, List.mem_range'_1]
  refine or_congr ⟨fun h ↦ ⟨p - (a + 1 + f.type.prims), by omega, ?_⟩, ?_⟩ ?_
  · simp only [cell]
    omega
  · rintro ⟨i, hi, rfl⟩
    simp only [cell]
    omega
  · simp only [cell]
    cases f.tail <;> simp

private theorem unitSlots_eq (hk : f.type.units = .refs)
    (hl : f.tail = .outOfLine → m.read (f.cell m a .link) ≠ Word.null) :
    f.unitSlots m a = List.range' (f.unitsAt m a) f.size := by
  simp only [unitSlots, unitsAt, cell, hk] at hl ⊢
  cases ht : f.tail with
  | inline => rfl
  | outOfLine => simp only [Word.toRef?, if_neg (hl ht)]

private theorem mem_unitSlots : p ∈ f.unitSlots m a ↔ f.type.units = .refs ∧
    (f.tail = .outOfLine → m.read (f.cell m a .link) ≠ Word.null) ∧
    ∃ i < f.size, p = f.cell m a (.unit i) := by
  by_cases hk : f.type.units = .refs
  · by_cases hl : f.tail = .outOfLine → m.read (f.cell m a .link) ≠ Word.null
    · rw [unitSlots_eq hk hl, List.mem_range'_1]
      refine ⟨fun h ↦ ⟨hk, hl, p - f.unitsAt m a, by omega, by simp only [cell]; omega⟩, ?_⟩
      rintro ⟨-, -, i, hi, rfl⟩
      simp only [cell]
      omega
    · obtain ⟨ht, hz⟩ := Classical.not_imp.mp hl
      rw [not_not] at hz
      simp only [cell] at hz
      simp only [unitSlots, hk, ht, hz, Word.toRef?_null, List.not_mem_nil, false_iff]
      exact fun h ↦ h.2.1 trivial hz
  · have hk' : f.type.units = .words := by
      cases h : f.type.units with
      | words => rfl
      | refs => exact absurd h hk
    simp only [unitSlots, hk', List.not_mem_nil, reduceCtorEq, false_and]

private theorem nodup_fixedSlots : (f.fixedSlots a).Nodup := by
  have hfields : f.type.fields = f.type.prims + f.type.ptrs := rfl
  refine List.nodup_append'.mpr ⟨List.nodup_range', ?_, fun p hp hq ↦ ?_⟩
  · cases f.tail with
    | inline => exact List.nodup_nil
    | outOfLine => exact List.nodup_singleton _
  · rw [List.mem_range'_1] at hp
    cases ht : f.tail with
    | inline => simp [ht] at hq
    | outOfLine =>
      simp only [ht, List.mem_singleton] at hq
      omega

private theorem nodup_unitSlots : (f.unitSlots m a).Nodup := by
  unfold unitSlots
  repeat' split
  all_goals first | exact List.nodup_nil | exact List.nodup_range'

/-- A slot lies in the object behind its plain fields, or in its block behind the header. -/
theorem slot_cases (hp : p ∈ f.fixedSlots a ++ f.unitSlots m a) :
    (a + 1 + f.type.prims ≤ p ∧ p < a + f.used ∧
      (f.type.units = .words → f.tail = .inline → p < a + 1 + f.type.fields)) ∨
    f.type.units = .refs ∧ f.tail = .outOfLine ∧
      ∃ b, Word.toRef? (m.read (a + 1 + f.type.fields)) = some b ∧
        b < p ∧ p < b + f.block.used := by
  have hfields : f.type.fields = f.type.prims + f.type.ptrs := rfl
  have hlt := f.fields_lt_used
  rcases List.mem_append.mp hp with hp | hp
  · left
    rcases (mem_fixedSlots (m := m)).mp hp with ⟨i, hi, rfl⟩ | ⟨ht, rfl⟩
    · simp only [cell]
      exact ⟨by omega, by omega, fun _ _ ↦ by omega⟩
    · simp only [cell, used, ht]
      exact ⟨by omega, by omega, fun _ he ↦ by cases he⟩
  · obtain ⟨hk, hl, i, hi, rfl⟩ := mem_unitSlots.mp hp
    simp only [cell, unitsAt] at hl ⊢
    cases ht : f.tail with
    | inline =>
      left
      simp only [used, ht, hk]
      exact ⟨by omega, by omega, fun he ↦ by cases he⟩
    | outOfLine =>
      right
      refine ⟨hk, rfl, _, if_neg (hl ht), ?_⟩
      simp only [used_block]
      omega

section Apart

variable (h : f.LinkedApart padding m a)
include h

/-- A word of the object that is a slot lies between its plain fields and its end. -/
theorem own_slot {i : Nat} (hi : i < f.words padding)
    (hp : a + i ∈ f.fixedSlots a ++ f.unitSlots m a) :
    1 + f.type.prims ≤ i ∧ i < f.used ∧
      (f.type.units = .words → f.tail = .inline → i < 1 + f.type.fields) := by
  have hlt := f.block.used_le_words padding
  rcases slot_cases hp with ⟨h₁, h₂, h₃⟩ | ⟨-, ht, b, hb, h₁, h₂⟩
  · exact ⟨by omega, by omega, fun hk ht ↦ by have := h₃ hk ht; omega⟩
  · have := h ht b hb
    simp only [Span.Apart, Span.stop] at this
    omega

/-- A word of the block that is a slot lies behind its header and before its rounding. -/
theorem block_slot (ht : f.tail = .outOfLine) {b i : Nat}
    (hb : Word.toRef? (m.read (a + 1 + f.type.fields)) = some b)
    (hi : i < f.block.words padding) (hp : b + i ∈ f.fixedSlots a ++ f.unitSlots m a) :
    f.type.units = .refs ∧ 1 ≤ i ∧ i < f.block.used := by
  have hused := f.used_le_words padding
  rcases slot_cases hp with ⟨h₁, h₂, -⟩ | ⟨hk, -, b', hb', h₁, h₂⟩
  · have := h ht b hb
    simp only [Span.Apart, Span.stop] at this
    omega
  · obtain rfl := Option.some.inj (hb.symm.trans hb')
    exact ⟨hk, by omega, by omega⟩

/-- The units follow the fixed slots or lie in the block. -/
theorem nodup_slots : (f.fixedSlots a ++ f.unitSlots m a).Nodup := by
  refine List.nodup_append'.mpr ⟨nodup_fixedSlots, nodup_unitSlots, fun p hp hq ↦ ?_⟩
  obtain ⟨-, hl, i, hi, rfl⟩ := mem_unitSlots.mp hq
  have hfields : f.type.fields = f.type.prims + f.type.ptrs := rfl
  simp only [cell, unitsAt] at hl hp
  cases ht : f.tail with
  | inline =>
    rcases (mem_fixedSlots (m := m)).mp hp with ⟨j, hj, he⟩ | ⟨ht', -⟩
    · simp only [cell, ht] at he
      omega
    · rw [ht] at ht'
      cases ht'
  | outOfLine =>
    have hused := f.used_le_words padding
    have hblock := f.block.used_le_words padding
    have := h ht _ (if_neg (hl ht))
    rw [used_block] at hblock
    simp only [used, ht] at hused
    simp only [Span.Apart, Span.stop] at this
    rcases (mem_fixedSlots (m := m)).mp hp with ⟨j, hj, he⟩ | ⟨-, he⟩ <;>
      simp only [cell, ht] at he <;> omega

/-- The fixed slots and those of the units are the slots, whatever the link refers to. -/
theorem listsSlots : f.ListsSlots padding m a (f.fixedSlots a ++ f.unitSlots m a) := by
  have hused := f.used_le_words padding
  have hfields : f.type.fields = f.type.prims + f.type.ptrs := rfl
  have hlt := f.fields_lt_used
  constructor
  case nodup => exact nodup_slots h
  case mem_iff =>
    intro p
    rw [List.mem_append, mem_fixedSlots, mem_unitSlots, or_assoc]
  case header =>
    intro hp
    have := own_slot h (f.words_pos padding) hp
    omega
  case prims =>
    intro i hi hp
    simp only [cell, Nat.add_assoc] at hp
    have := own_slot h (by omega) hp
    omega
  case plainUnits =>
    intro hk hl i hi hp
    simp only [cell, unitsAt] at hl hp
    cases ht : f.tail with
    | inline =>
      simp only [ht, Nat.add_assoc] at hp
      simp only [used, ht] at hused
      have := (own_slot h (by omega) hp).2.2 hk ht
      omega
    | outOfLine =>
      have hblock := f.block.used_le_words padding
      rw [used_block] at hblock
      simp only [ht, Nat.add_assoc (Word.toAddr _) 1 i] at hp
      have hr := (block_slot h ht (if_neg (hl ht)) (by omega) hp).1
      rw [hk] at hr
      cases hr
  case rounding =>
    intro i hi hi' hp
    have := own_slot h hi' hp
    omega
  case block =>
    intro ht b hb
    refine ⟨fun hp ↦ ?_, fun i hi hi' hp ↦ ?_⟩
    · have := block_slot h ht hb (f.block.words_pos padding) hp
      omega
    · have := block_slot h ht hb hi' hp
      omega

end Apart

end Form

/-! ### The visit -/

namespace Slots

variable {ε σ : Type}

/-- To visit neighbouring words is to visit them one after the other. -/
theorem visitRange_eq {m : Type → Type} [Monad m] (use : Nat → m Unit)
    (first count : Nat) : visitRange use first count = (List.range' first count).forM use := by
  induction count generalizing first with
  | zero => rfl
  | succ count ih => rw [visitRange, List.range'_succ, List.forM, ih]

/-- A visitor is first handed the slots that are fixed, and then those of the units in the memory
that is there by then. -/
theorem visit_eq (f : Form) (a : Nat) (mem : σ → Memory) (use : Nat → EStateM ε σ Unit) :
    (f.slots a).visit (fun p ↦ return (mem (← get)).read p) use = (do
      (f.fixedSlots a).forM use
      (f.unitSlots (mem (← get)) a).forM use) := by
  have happend : ∀ (ps : List Nat) (p : Nat), (ps ++ [p]).forM use = (do ps.forM use; use p) := by
    intro ps p
    exact List.forM_append.trans (by simp)
  unfold visit Form.fixedSlots
  simp only [Form.slots, visitRange_eq]
  cases ht : f.tail with
  | inline =>
    cases hk : f.type.units with
    | words => simp [Form.unitSlots, hk]
    | refs => simp [Form.unitSlots, hk, ht]
  | outOfLine =>
    rw [happend]
    simp only [bind_assoc, pure_bind, decide_eq_true_eq]
    cases hk : f.type.units with
    | words => simp [Form.unitSlots, hk]
    | refs =>
      simp only [Form.unitSlots, hk, ht, if_true]
      refine bind_congr fun _ ↦ bind_congr fun _ ↦ bind_congr fun s ↦ ?_
      cases Word.toRef? ((mem s).read (a + 1 + f.type.fields)) <;> rfl

end Slots

/-! ### The scan of an object -/

namespace Origin

/-- What evacuation has made of word `w`: null stays null, and a reference becomes one to the direct
object outside the source to which it is led in the state. -/
def LedTo (o : Origin) (st : CopyState) (w w' : Word) : Prop :=
  match Word.toRef? w with
  | none => w' = Word.null
  | some x => ∃ r, o.pass.evacuate x st = .ok r st ∧ w' = Word.ofAddr r ∧
      o.pass.source.contains r = false ∧ st.memory.hop? r = none

/-- What a scan makes of the object of form `f` at `a`. -/
structure Scanned (o : Origin) (st : CopyState) (a : Nat) (f : Form) (st' : CopyState) : Prop where
  before : st.memory.form? o.pass.table a = some f
  header : st'.memory.form? o.pass.table a = some f
  slot : ∀ part, f.IsSlot part → o.LedTo st' (st.memory.read (f.cell st.memory a part))
    (st'.memory.read (f.cell st'.memory a part))
  other : ∀ part, f.Has part → ¬ f.IsSlot part →
    st'.memory.read (f.cell st'.memory a part) = st.memory.read (f.cell st.memory a part)
  rounding : ∀ i, f.used ≤ i → i < f.words o.pass.padding →
    st'.memory.read (a + i) = st.memory.read (a + i)
  linked : f.LinkedApart o.pass.padding st'.memory a
  /-- The block that the link refers to has the header and the rounding of the one before. -/
  block : f.tail = .outOfLine → ∃ b b', Word.toRef? (st.memory.read (f.cell st.memory a .link)) =
      some b ∧ Word.toRef? (st'.memory.read (f.cell st'.memory a .link)) = some b' ∧
    st.memory.form? o.pass.table (st.memory.resolve b) = some f.block ∧
    st'.memory.form? o.pass.table b' = some f.block ∧
    ∀ i, f.block.used ≤ i → i < f.block.words o.pass.padding →
      st'.memory.read (b' + i) = st.memory.read (b + i)

variable {o : Origin} {cs cs' : Copies} {log : List (Nat × Nat)} {m : Memory} {target : Region}
  {st st' : CopyState} {s t : Span} {f g : Form} {a p q : Nat} {part : Part} {w w' : Word}

section Holds

variable (ho : o.Sound) (h : o.Holds cs m target)
include ho h

omit h in
/-- The block of an object, as the form of the object tells. -/
theorem Sound.block_form (hs : o.Object s f) (hf : f.tail = .outOfLine) :
    ∃ b, o.Object b f.block ∧
      o.memory.read (f.cell o.memory s.start .link) = Word.ofAddr b.start ∧
      ∀ i, f.cell o.memory s.start (.unit i) = f.block.cell o.memory b.start (.unit i) := by
  obtain ⟨b, ⟨tag, size, tail, type⟩, hb, hkb, hki, hkz, hl, -, hcell⟩ := ho.block hs hf
  obtain rfl : type = .tailBlock := hb.type_of_isBlock hkb
  obtain rfl : tag = blockTag := hkb
  obtain rfl : tail = .inline := hki
  obtain rfl : size = f.size := hkz
  exact ⟨b, hb, hl, hcell⟩

/-- A link leads to a block of the source, as it did at the origin, or to what stands for that
block. -/
theorem Holds.link_cases (hs : o.Stands cs s t f g) (hg : g.tail = .outOfLine) :
    ∃ b x, o.Object b g.block ∧
      (∀ i, f.cell o.memory s.start (.unit i) = g.block.cell o.memory b.start (.unit i)) ∧
      Word.toRef? (m.read (g.cell m t.start .link)) = some x ∧
      (x = b.start ∧ b ∈ o.inside ∨ ∃ tb, o.Stands cs b tb g.block g.block ∧ x = tb.start) := by
  obtain rfl := hs.form_eq hg
  obtain ⟨b, hb, hl, hcell⟩ := ho.block_form hs.object hg
  have hw := ho.wellFormed
  have hob : IsObject o.objects b.start := .of_mem hb.mem
  have hcomes := h.comes_cell ho hs (show g.Has .link from hg) fun hn ↦ absurd g.own_link hn
  have hstays : ∀ {x}, o.pass.source.contains (cs.current b.start) = false →
      x = cs.current b.start → ∃ tb, o.Stands cs b tb g.block g.block ∧ x = tb.start := by
    intro x hn hx
    obtain ⟨tb, kb, htb, hcur⟩ := h.plan.stands ho hb hn
    have hkb : kb = g.block := by
      cases htb with
      | stays => rfl
      | copied => exact Evacuation.shape_of_inline rfl
    rw [hkb] at htb
    exact ⟨tb, htb, hx.trans hcur.symm⟩
  rcases h.word _ _ hcomes with he | ⟨-, b', d, k, hb', hob', hd, hld, hr, hn⟩
  · refine ⟨b, b.start, hb, hcell, by rw [he, hl, hw.toRef?_ofAddr hob], ?_⟩
    rcases mem_objects.mp hb.mem with hin | hout
    · exact .inl ⟨rfl, hin⟩
    · exact .inr ⟨b, .stays hout hb, rfl⟩
  · -- The link was updated: what it led to is the block.
    obtain rfl := hw.ofAddr_inj hob' hob (hb'.symm.trans hl)
    rw [hld.unique (.here hb.hop?)] at hr hn
    obtain ⟨tb, htb, hx⟩ := hstays hn rfl
    exact ⟨b, tb.start, hb, hcell, by rw [hr, hx, (h.mapped_stands ho htb).toRef?_ofAddr],
      .inr ⟨tb, htb, rfl⟩⟩

/-- The link of an object outside the source leads to a block that lies apart from the object. -/
theorem Holds.linkedApart (hs : o.Stands cs s t f g) :
    g.LinkedApart o.pass.padding m t.start := by
  intro hg x hx
  obtain ⟨b, x', hb, -, href, hcases⟩ := h.link_cases ho hs hg
  obtain rfl := Option.some.inj (hx.symm.trans href)
  have hwords := hs.words_eq ho h.plan
  refine Span.apart_of_forall_ne (g.words_pos _) (g.block.words_pos _) fun i hi j hj he ↦ ?_
  dsimp only at hi hj he
  rw [← hwords] at hi
  rcases hcases with ⟨rfl, hin⟩ | ⟨tb, htb, rfl⟩
  · have hn := hs.not_contains ho h.plan hi
    rw [he, ho.contains_inside hin (by rw [ho.wellFormed.extent b _ hb]; exact hj)] at hn
    cases hn
  · rw [← htb.words_eq ho h.plan] at hj
    obtain ⟨-, -, -, hgb⟩ := hs.unique ho h.plan htb hi hj he
    rw [hgb] at hg
    cases hg

/-- Every part of an object outside the source carries the same part of the object it stands for,
also while its link still leads into the source. -/
theorem Holds.carries_cell (hs : o.Stands cs s t f g) (hp : g.Has part) :
    o.Carries cs m (f.cell o.memory s.start part) (g.cell m t.start part) := by
  by_cases hown : g.Own part
  · exact h.word _ _ (h.comes_cell ho hs hp fun hn ↦ absurd hown hn)
  obtain ⟨j, rfl, hg⟩ := Form.exists_of_not_own hown
  obtain ⟨b, x, hb, hcell, href, hx⟩ := h.link_cases ho hs hg
  have hj : g.block.Has (.unit j) := hp
  have hownk : g.block.Own (.unit j) := fun _ _ ↦ rfl
  have hunit : g.cell m t.start (.unit j) = x + g.block.index (.unit j) := by
    simp only [Form.cell] at href
    simp only [Form.cell, Form.unitsAt, hg, Word.toAddr_of_toRef? href]
    simp only [Form.index, Form.block, TypeInfo.fields, TypeInfo.tailBlock]
    omega
  rw [hunit, hcell]
  rcases hx with ⟨rfl, hin⟩ | ⟨tb, htb, rfl⟩
  · obtain ⟨h₀, h₁⟩ := Form.index_lt_used hj hownk
    left
    rw [Form.cell_eq_of_own hownk]
    exact h.read_inside ho hin (Nat.lt_of_lt_of_le h₁ (ho.wellFormed.used_le hb)) (by omega)
  · exact h.word _ _ ⟨b, tb, _, _, _, htb, hj, hownk, rfl, rfl⟩

/-- A part that is no slot holds what it held. -/
theorem Holds.read_cell (hs : o.Stands cs s t f g) (hb : ¬ f.IsBlock) (hp : g.Has part)
    (hn : ¬ g.IsSlot part) :
    m.read (g.cell m t.start part) = o.memory.read (f.cell o.memory s.start part) := by
  refine (h.carries_cell ho hs hp).resolve_right fun hc ↦ ?_
  have hl : part ≠ .link := by
    rintro rfl
    exact hn (.inr ⟨rfl, hp⟩)
  have hpf : f.Has part := by
    cases hs with
    | stays => exact hp
    | copied => exact Evacuation.has_of_shape hp
  exact ho.not_slot hs.object hb hpf hl (fun hr ↦ hn (.inl (hs.refers_iff.mpr hr))) hc.1

/-- The header and the rounding of the block of an object outside the source. -/
theorem Holds.block (hs : o.Stands cs s t f g) (hg : g.tail = .outOfLine) :
    ∃ b, Word.toRef? (m.read (g.cell m t.start .link)) = some b ∧
      m.form? o.pass.table (m.resolve b) = some g.block ∧
      ∀ i, g.block.used ≤ i → i < g.block.words o.pass.padding → m.read (b + i) = 0 := by
  obtain ⟨b, x, hb, -, href, hx⟩ := h.link_cases ho hs hg
  refine ⟨x, href, ?_⟩
  rcases hx with ⟨rfl, hin⟩ | ⟨tb, htb, rfl⟩
  · have hpos := g.block.used_pos
    have hwords := ho.wellFormed.extent b _ hb
    rw [(h.leads ho hb (.of_mem hb.mem) (.here hb.hop?)).resolve]
    refine ⟨?_, fun i hi hi' ↦ ?_⟩
    · cases hn : o.pass.source.contains (cs.current b.start) with
      | true =>
        obtain ⟨-, hcur, hw⟩ := h.plan.waiting ho hb hn
        rw [hcur]
        exact h.form?_waiting ho hb hin hw
      | false =>
        obtain ⟨tb, kb, htb, hcur⟩ := h.plan.stands ho hb hn
        obtain ⟨-, rfl⟩ := htb.mem_of_inside ho hin
        rw [← hcur, h.form? htb, Evacuation.shape_of_inline rfl]
    · rw [h.read_inside ho hin (by omega) (by omega)]
      exact ho.wellFormed.blank b _ hb i hi (by omega)
  · have hform := h.form? htb
    have hwords := htb.words_eq ho h.plan
    rw [Memory.resolve_of_hop?_eq_none (Memory.hop?_of_form? hform)]
    exact ⟨hform, fun i hi hi' ↦ h.blank b tb _ _ htb i hi (by omega)⟩

/-- What a slot is updated to is what evacuation makes of any word that it held since the origin. -/
theorem Final.ledTo (h' : o.Holds cs' st'.memory st'.target) (hcs : cs <+: cs')
    (hc : o.Carries cs m q p) (hf : o.Final cs' q w') : o.LedTo st' (m.read p) w' := by
  have hw := ho.wellFormed
  rcases hf with ⟨hz, rfl⟩ | ⟨b, d, k, hb, hob, hd, hl, rfl, hn⟩
  · rcases hc with he | ⟨-, b, d, k, hb, hob, -⟩
    · rw [LedTo, he, hz]
      rfl
    · exact absurd (hb.symm.trans hz) (hw.mapped_of_isObject hob).ofAddr_ne_null
  · have hx : ∃ x, Word.toRef? (m.read p) = some x ∧
        st'.memory.Leads x (cs'.current d.start) := by
      rcases hc with he | ⟨-, b', d', k', hb', hob', -, hl', hr, hn'⟩
      · exact ⟨b, by rw [he, hb, hw.toRef?_ofAddr hob], h'.leads ho hd hob hl⟩
      · obtain rfl := hw.ofAddr_inj hob' hob (hb'.symm.trans hb)
        rw [hl'.unique hl] at hr hn'
        obtain ⟨ds, rfl⟩ := hcs
        obtain ⟨t, g, ht, hcur⟩ := h.plan.stands ho hd hn'
        have ht' := ht.mono (List.prefix_append cs ds).subset
        rw [hr, ← hcur, ht'.current_eq ho h'.plan]
        exact ⟨t.start, (h.mapped_stands ho ht).toRef?_ofAddr,
          .here (Memory.hop?_of_form? (h'.form? ht'))⟩
    obtain ⟨x, hx, hlead⟩ := hx
    rw [LedTo, hx]
    exact ⟨_, Evacuation.evacuate_of_leads hlead hn, rfl, hn, hlead.hop?_eq_none⟩

end Holds

section Scan

variable (ho : o.Sound) (h : o.Holds cs st.memory st.target) (hs : o.Stands cs s t f g)
include ho h hs

/-- A block has no slots, and to scan it does nothing. -/
theorem Stands.scanned_of_isBlock (hb : g.IsBlock) :
    o.pass.scanObject t.start st = .ok () st ∧ o.Scanned st t.start g st := by
  have hfb := hs.isBlock_iff.mp hb
  have hfi := ho.wellFormed.inline s f hs.object hfb
  have hg : g = f := by
    cases hs with
    | stays => rfl
    | copied => exact Evacuation.shape_of_inline hfi
  subst hg
  have htype := hs.object.type_of_isBlock hb
  have hform := h.form? hs
  have hslot : ∀ part, ¬ g.IsSlot part := by
    rintro part (hr | ⟨-, ht⟩)
    · exact hs.object.not_refers_of_isBlock hb hr
    · rw [hfi] at ht
      cases ht
  refine ⟨?_, hform, hform, fun part hp ↦ absurd hp (hslot part), fun _ _ _ ↦ rfl, fun _ _ _ ↦ rfl,
    h.linkedApart ho hs, fun ht ↦ ?_⟩
  · simp only [Evacuation.scanObject, CopyM.inspect, Memory.slots_of_form? hform, attempt, bind,
      EStateM.bind, Form.slots, htype, hfi, TypeInfo.tailBlock, Slots.visit, Slots.visitRange,
      reduceCtorEq, if_false]
    rfl
  · rw [hfi] at ht
    cases ht

/-- A scan updates the slots of the object and changes nothing else of it. -/
theorem ends_scanObject_scanned (hopen : o.Open) :
    Ends (o.pass.scanObject t.start) st (fun _ st' ↦ o.Scanned st t.start g st') o.Stuck := by
  by_cases hb : g.IsBlock
  · obtain ⟨he, hsc⟩ := hs.scanned_of_isBlock ho h hb
    exact (ends_iff_of_eq_ok he).mpr hsc
  have hfb : ¬ f.IsBlock := fun hfb ↦ hb (hs.isBlock_iff.mpr hfb)
  refine (ends_scanObject_finished ho h hs fun _ ↦ hopen.dueSlot ho h hs).imp ?_
  rintro _ st' ⟨cs', h', hadv, ⟨hfin, -⟩, -⟩
  have hs' := hs.mono hadv.copies.subset
  have hwords := hs.words_eq ho h.plan
  constructor
  case before => exact h.form? hs
  case header => exact h'.form? hs'
  case slot =>
    intro part hp
    exact (hfin part hp).ledTo ho h h' hadv.copies (h.carries_cell ho hs hp.has)
  case other =>
    intro part hp hn
    rw [h'.read_cell ho hs' hfb hp hn, h.read_cell ho hs hfb hp hn]
  case rounding =>
    intro i hi hi'
    rw [← hwords] at hi'
    rw [h'.blank s t f g hs' i hi hi', h.blank s t f g hs i hi hi']
  case linked => exact h'.linkedApart ho hs'
  case block =>
    intro hg
    obtain ⟨b, href, hform, hzero⟩ := h.block ho hs hg
    obtain ⟨b', href', hform', hzero'⟩ := h'.block ho hs' hg
    have hdirect := ((hfin .link (.inr ⟨rfl, hg⟩)).firm ho h' href').2
    rw [Memory.resolve_of_hop?_eq_none hdirect] at hform'
    exact ⟨b, b', href, href', hform, hform', fun i hi hi' ↦ by
      rw [hzero i hi hi', hzero' i hi hi']⟩

end Scan

end Origin

/-! ### All objects -/

/-- A consumer is handed the slots of a direct object, each once and in order, whatever it does: the
reference fields and the link, and then the units, if they hold references, of the tail that the
link refers to by then. So in a pass, a scan of an object outside the source updates all of its
slots and changes nothing else of it or of its block, or it finds the target exhausted. -/
theorem slots_exact :
    (∀ (m : Memory) (table : TypeTable) (padding : Bool) (a : Nat) (f : Form),
      m.form? table a = some f →
        m.slots table a = .ok (f.slots a) ∧
        (∀ (ε σ : Type) (mem : σ → Memory) (use : Nat → EStateM ε σ Unit),
          (f.slots a).visit (fun p ↦ return (mem (← get)).read p) use = (do
            (f.fixedSlots a).forM use
            (f.unitSlots (mem (← get)) a).forM use)) ∧
        ∀ m' : Memory, f.LinkedApart padding m' a →
          f.ListsSlots padding m' a (f.fixedSlots a ++ f.unitSlots m' a)) ∧
    ∀ (o : Origin) (log : List (Nat × Nat)) (st : CopyState) (a : Nat), o.Sound →
      o.Calls log st → o.Scannable st a →
        Ends (o.pass.scanObject a) st (fun _ st' ↦ ∃ f, o.Scanned st a f st')
          (fun e _ ↦ (∃ needed free, e = .fatal (.exhausted needed free)) ∧
            o.target.free < o.pass.source.cursor) := by
  refine ⟨fun m table padding a f hf ↦ ⟨Memory.slots_of_form? hf,
    fun ε σ mem use ↦ Slots.visit_eq f a mem use, fun m' ↦ Form.listsSlots⟩,
    fun o log st a ho hc hs ↦ ?_⟩
  obtain ⟨cs, h⟩ := hc.opened.exists_follows ho.opened Origin.open_opened
  obtain ⟨⟨t, ht, rfl⟩, hh, hn⟩ := hs
  obtain ⟨s, f, g, hst⟩ := h.holds.standing ho.opened ht hh hn
  refine (Origin.ends_scanObject_scanned ho.opened h.holds hst Origin.open_opened).mono
    (fun _ st' hsc ↦ ⟨g, hsc.before, hsc.header, hsc.slot, hsc.other, hsc.rounding,
      hsc.linked, hsc.block⟩) ?_
  rintro e st' hstuck
  have hlt : o.opened.target.free < o.opened.pass.source.cursor := hstuck.lt ho.opened
  refine ⟨?_, hlt⟩
  obtain ⟨-, -, -, -, -, -, -, -, -, rfl⟩ := hstuck
  exact ⟨_, _, rfl⟩

open Mutator in
/-- A copy whose block is copied while it is scanned, before its units are enumerated. -/
theorem slots_exact_sample : ∃ (h : Heap) (l : Census) (a r : Nat) (st st' : CopyState) (f : Form),
    h.Sound l ∧ (h.epochOrigin l).Calls [(a, r)] st ∧ (h.epochOrigin l).Scannable st r ∧
    st.tally.objects = 1 ∧ (h.epochOrigin l).pass.scanObject r st = .ok () st' ∧
    st'.tally.objects = 3 ∧ (h.epochOrigin l).Scanned st r f st' ∧
    f.ListsSlots h.settings.padding st'.memory r (f.fixedSlots r ++ f.unitSlots st'.memory r) := by
  obtain ⟨h, l, a, r, st, st', hs, hc, hone, hsc, hthree⟩ := Sample.exists_cycleCalls
    (fun o r ↦ o.pass.scanObject r) (fun _ _ ↦ rfl)
    (show Sample.cycleCounts _ = some (some (1, 3)) by decide +kernel)
  have hr : (h.epochOrigin l).Scannable st r :=
    hc.scannable hs.epochOrigin (List.mem_singleton.mpr rfl)
  obtain ⟨hlist, hscan⟩ := slots_exact
  obtain ⟨f, hf⟩ := (hscan _ _ _ _ hs.epochOrigin hc hr).of_eq_ok hsc
  exact ⟨h, l, a, r, st, st', f, hs, hc, hr, hone, hsc, hthree, hf,
    (hlist _ _ _ _ _ hf.before).2.2 _ hf.linked⟩

end Tenure
