import Tenure.Proofs.Store

/-!
# Placing new objects

A new object takes zeroed words behind those in use: its own and, for a tail in a block, the block's
behind them. Main statements: `read_cell_place`, every part of the new object is zero but for the
link; `WellFormed.place`, the memory stays well-formed, now with the new spans as well.
-/

namespace Tenure

namespace Form

/-- The form of the block of an object. -/
def block (f : Form) : Form := ⟨blockTag, f.size, .inline, .tailBlock⟩

/-- The sizes of an allocation of an object of this form. -/
def footprint (f : Form) (padding : Bool) : Footprint where
  tag := f.tag
  size := f.size
  tail := f.tail
  fields := f.type.fields
  ownerWords := f.words padding
  blockWords := match f.tail with
    | .inline => 0
    | .outOfLine => padded padding (1 + f.size)

/-- The spans of a new object of this form at `a`: its own and its block's. -/
def spans (f : Form) (padding : Bool) (a : Nat) : List Span :=
  ⟨a, f.words padding⟩ :: match f.tail with
    | .inline => []
    | .outOfLine => [⟨a + f.words padding, f.block.words padding⟩]

/-- A block uses its header and its units. -/
theorem used_block (f : Form) : f.block.used = 1 + f.size := by
  simp only [used, block, TypeInfo.fields, TypeInfo.tailBlock]

/-- A block takes its header and its units, with padding. -/
theorem words_block (f : Form) (padding : Bool) :
    f.block.words padding = padded padding (1 + f.size) := by
  rw [words_eq, used_block]

/-- The block of a form is a block. -/
theorem isBlock_block (f : Form) : f.block.IsBlock := rfl

/-- The spans of an allocation take up its words. -/
theorem tiles_spans (f : Form) (padding : Bool) (a : Nat) :
    Tiles (f.spans padding a) a (a + (f.footprint padding).words) := by
  have h₀ := f.words_pos padding
  have h₁ := f.block.words_pos padding
  have h₂ := f.words_block padding
  simp only [spans, footprint, Footprint.words]
  cases ht : f.tail with
  | inline => exact ⟨rfl, h₀, rfl⟩
  | outOfLine =>
    refine ⟨rfl, h₀, rfl, h₁, ?_⟩
    simp only [tiles_nil, Span.stop, h₂]
    omega

end Form

/-- An allocation has a footprint if its tag has a type and is not reserved, and its tail is not too
long. -/
theorem TypeTable.footprint_eq_ok_iff {table : TypeTable} {tag size : Nat} {tail : TailLayout}
    {padding : Bool} {fp : Footprint} : table.footprint tag size tail padding = .ok fp ↔
      ∃ type, tag ≠ blockTag ∧ table.get? tag = some type ∧ size ≤ maxTailSize ∧
        fp = (⟨tag, size, tail, type⟩ : Form).footprint padding := by
  unfold TypeTable.footprint
  split
  · next h =>
    simp only [reduceCtorEq, false_iff]
    rintro ⟨type, hn, hg, -⟩
    rw [if_neg hn, hg] at h
    cases h
  · next info h =>
    have hn : tag ≠ blockTag := by
      intro he
      rw [if_pos he] at h
      cases h
    rw [if_neg hn] at h
    split
    · next hlt =>
      simp only [reduceCtorEq, false_iff]
      rintro ⟨type, -, -, hs, -⟩
      omega
    · next hlt =>
      constructor
      · intro he
        exact ⟨info, hn, h, by omega, (Except.ok.inj he).symm⟩
      · rintro ⟨type, -, hg, -, rfl⟩
        rw [h] at hg
        cases hg
        rfl

namespace Memory

variable {m : Memory} {table : TypeTable} {padding : Bool} {os : List Span} {f : Form} {a : Nat}

/-- The words for a new object: mapped, zero and apart from all objects. -/
structure Vacant (m : Memory) (os : List Span) (a n : Nat) : Prop where
  mapped : ∀ i < n, m.Mapped (a + i)
  zero : ∀ i < n, m.read (a + i) = 0
  apart : ∀ s ∈ os, s.Apart ⟨a, n⟩

/-- A form that can be allocated. -/
structure Allocatable (table : TypeTable) (f : Form) : Prop where
  type : table.get? f.tag = some f.type
  notBlock : ¬ f.IsBlock
  tag_le : f.tag ≤ maxTag
  size_le : f.size ≤ maxTailSize

/-- The words of the object, and behind them those of its block. -/
theorem words_footprint (padding : Bool) (h : f.tail = .outOfLine) :
    (f.footprint padding).words = f.words padding + f.block.words padding := by
  simp only [Form.footprint, Footprint.words, h, f.words_block padding]

/-- The object itself is part of the allocation. -/
theorem words_le_footprint (f : Form) (padding : Bool) :
    f.words padding ≤ (f.footprint padding).words :=
  Nat.le_add_right _ _

private theorem link_lt (padding : Bool) (h : f.tail = .outOfLine) :
    1 + f.type.fields < f.words padding := by
  have := f.used_le_words padding
  simp only [Form.used, h] at this
  omega

section Place

variable (hv : m.Vacant os a (f.footprint padding).words)
include hv

/-- After an object is placed its headers and its link are as they should be, and all else is as
before. -/
theorem read_place (p : Nat) : ((f.footprint padding).place m a).read p =
    if p = a then f.header.word
    else if f.tail = .outOfLine ∧ p = a + f.words padding then f.block.header.word
    else if f.tail = .outOfLine ∧ p = a + 1 + f.type.fields then
      Word.ofAddr (a + f.words padding)
    else m.read p := by
  have h₀ := f.words_pos padding
  have hle := words_le_footprint f padding
  have ha : m.Mapped a := hv.mapped 0 (by omega)
  cases ht : f.tail with
  | inline =>
    simp only [Footprint.place, Form.footprint, ht, writeHeader, Form.header, reduceCtorEq,
      false_and, if_false]
    rw [read_write]
    by_cases hp : p = a
    · rw [if_pos hp, if_pos ⟨hp.symm, ha⟩]
    · rw [if_neg hp, if_neg fun h ↦ hp h.1.symm]
  | outOfLine =>
    have h₁ := f.block.words_pos padding
    have h₂ := link_lt padding ht
    have hw := words_footprint padding ht
    have hb : m.Mapped (a + f.words padding) := hv.mapped _ (by omega)
    have hl : m.Mapped (a + 1 + f.type.fields) := by
      rw [Nat.add_assoc]
      exact hv.mapped _ (by omega)
    simp only [Footprint.place, Form.footprint, ht, writeHeader, writeRef, Form.header, true_and]
    rw [read_write, read_write, read_write]
    simp only [mapped_write, ha, hb, hl, and_true]
    by_cases hp : p = a
    · rw [if_pos hp, if_neg (by omega), if_neg (by omega), if_pos hp.symm]
    · rw [if_neg hp]
      by_cases hpb : p = a + f.words padding
      · rw [if_pos hpb, if_neg (by omega), if_pos hpb.symm]
        rfl
      · rw [if_neg hpb]
        by_cases hpl : p = a + 1 + f.type.fields
        · rw [if_pos hpl, if_pos hpl.symm]
        · rw [if_neg hpl, if_neg (Ne.symm hpl), if_neg (Ne.symm hpb), if_neg (Ne.symm hp)]

omit hv in
/-- To place an object maps no memory. -/
theorem mapped_place {p : Nat} : ((f.footprint padding).place m a).Mapped p ↔ m.Mapped p := by
  simp only [Footprint.place, Form.footprint, writeHeader, writeRef]
  split <;> simp only [mapped_write]

/-- Placing an object changes no word but those it takes. -/
theorem read_place_of_outside {p : Nat} (hp : p < a ∨ a + (f.footprint padding).words ≤ p) :
    ((f.footprint padding).place m a).read p = m.read p := by
  have h₀ := f.words_pos padding
  have hle := words_le_footprint f padding
  rw [read_place hv, if_neg (by omega), if_neg, if_neg]
  · rintro ⟨ht, rfl⟩
    have := link_lt padding ht
    omega
  · rintro ⟨ht, rfl⟩
    have := words_footprint padding ht
    have := f.block.words_pos padding
    omega

/-- Placing an object changes no word of those there are. -/
theorem read_place_of_mem {s : Span} (hs : s ∈ os) {i : Nat} (hi : i < s.words) :
    ((f.footprint padding).place m a).read (s.start + i) = m.read (s.start + i) := by
  have ha := hv.apart s hs
  simp only [Span.Apart, Span.stop] at ha
  exact read_place_of_outside hv (by omega)

/-- The new object is direct and has the form asked for. -/
theorem direct_place (ho : Allocatable table f) :
    ((f.footprint padding).place m a).Direct table (f.spans padding a) ⟨a, f.words padding⟩ f := by
  refine ⟨List.mem_cons_self .., form?_of_read ?_ ho.tag_le ho.size_le ho.type⟩
  rw [read_place hv, if_pos rfl]

/-- The block of the new object is direct. -/
theorem direct_place_block (ho : Allocatable table f) (ht : f.tail = .outOfLine) :
    ((f.footprint padding).place m a).Direct table (f.spans padding a)
      ⟨a + f.words padding, f.block.words padding⟩ f.block := by
  have h₀ := f.words_pos padding
  refine ⟨?_, form?_of_read ?_ (Nat.zero_le _) ho.size_le rfl⟩
  · simp only [Form.spans, ht, List.mem_cons, or_true, true_or]
  · rw [read_place hv, if_neg (by simp only; omega), if_pos ⟨ht, rfl⟩]

/-- The link of the new object leads to its block. -/
theorem read_link_place (ht : f.tail = .outOfLine) :
    ((f.footprint padding).place m a).read (a + 1 + f.type.fields) =
      Word.ofAddr (a + f.words padding) := by
  have := link_lt padding ht
  rw [read_place hv, if_neg (by omega), if_neg (by omega), if_pos ⟨ht, rfl⟩]

/-- Every other word of the new object and its block is zero. -/
theorem read_place_eq_zero {i : Nat} (h₀ : 0 < i) (hi : i < (f.footprint padding).words)
    (hb : f.tail = .outOfLine → i ≠ f.words padding ∧ i ≠ 1 + f.type.fields) :
    ((f.footprint padding).place m a).read (a + i) = 0 := by
  rw [read_place hv, if_neg (by omega), if_neg, if_neg]
  · exact hv.zero i hi
  · rintro ⟨ht, hp⟩
    have := hb ht
    omega
  · rintro ⟨ht, hp⟩
    have := hb ht
    omega

/-- Every part of the new object but the link is zero. -/
theorem read_cell_place {part : Part} (hp : f.Has part) (hl : part ≠ .link) :
    ((f.footprint padding).place m a).read
      (f.cell ((f.footprint padding).place m a) a part) = 0 := by
  have hle := words_le_footprint f padding
  have huw := f.used_le_words padding
  by_cases hown : f.Own part
  · obtain ⟨h₀, h₁⟩ := Form.index_lt_used hp hown
    rw [Form.cell_eq_of_own hown]
    refine read_place_eq_zero hv h₀ (by omega) fun ht ↦ ⟨by omega, fun he ↦ hl ?_⟩
    exact Form.index_inj hp (show f.Has .link from ht) hown f.own_link he
  · obtain ⟨i, rfl, ht⟩ := Form.exists_of_not_own hown
    have hi : i < f.size := hp
    have hw := words_footprint padding ht
    have hub := f.block.used_le_words padding
    have hlim : a + f.words padding < addressLimit := by
      have := (hv.mapped (f.words padding) (by have := f.block.words_pos padding; omega)).2
      exact Nat.lt_of_lt_of_le this m.fits
    have := link_lt padding ht
    rw [f.used_block] at hub
    simp only [Form.cell, Form.unitsAt, ht, read_link_place hv ht, Word.toAddr_ofAddr hlim]
    rw [show a + f.words padding + 1 + i = a + (f.words padding + 1 + i) by omega]
    exact read_place_eq_zero hv (by omega) (by omega) fun _ ↦ ⟨by omega, by omega⟩

variable (hw : m.WellFormed table padding os) (ho : Allocatable table f)
include hw

/-- The headers of the objects that were there stay as they are. -/
theorem read_start_place {s : Span} (hs : s ∈ os) :
    ((f.footprint padding).place m a).read s.start = m.read s.start :=
  read_place_of_mem hv hs (hw.nonempty s hs)

/-- Placing an object leaves the parts of the others as they are. -/
theorem read_cell_place_of_mem {s : Span} {g : Form} {part : Part}
    (hg : m.Direct table os s g) (hp : g.Has part) :
    ((f.footprint padding).place m a).read (g.cell m s.start part) =
      m.read (g.cell m s.start part) := by
  obtain ⟨t, ht, i, _, hi, hc⟩ := hw.cell_mem hg hp
  rw [hc]
  exact read_place_of_mem hv ht hi

/-- The parts of the objects that were there stay where they are. -/
theorem cell_place_of_mem {s : Span} {g : Form} {part : Part} (hg : m.Direct table os s g) :
    g.cell ((f.footprint padding).place m a) s.start part = g.cell m s.start part :=
  Form.cell_congr fun ht ↦ read_cell_place_of_mem hv hw hg (show g.Has .link from ht)

/-- References keep what they denote. -/
theorem Denotes.place {b d : Nat} (h : m.Denotes table os b d) :
    ((f.footprint padding).place m a).Denotes table (os ++ f.spans padding a) b d :=
  (h.congr (fun _ hs ↦ read_start_place hv hw hs) hw).mono fun _ hs ↦ List.mem_append_left _ hs

private theorem Valid.place {b : Nat} (h : m.Valid table os b) :
    ((f.footprint padding).place m a).Valid table (os ++ f.spans padding a) b :=
  (h.denotes.place hv hw).valid

-- The block of the new object is none of those there were, so no link leads to it yet.
private theorem link_ne_place {s : Span} {g : Form} (hg : m.Direct table os s g)
    (hgt : g.tail = .outOfLine) (hft : f.tail = .outOfLine) :
    m.read (g.cell m s.start .link) ≠ Word.ofAddr (a + f.words padding) := by
  intro he
  obtain ⟨t, k, hk, hl, _, _⟩ := hw.block s g hg hgt
  have hfw := words_footprint padding hft
  have hbw := f.block.words_pos padding
  have hm : m.Mapped (a + f.words padding) := hv.mapped _ (by omega)
  have hst : t.start = a + f.words padding := by
    rw [← hw.toAddr_ofAddr (.of_mem hk.mem), ← hl, he, hm.toAddr_ofAddr]
  have hap := hv.apart t hk.mem
  have hne := hw.nonempty t hk.mem
  simp only [Span.Apart, Span.stop] at hap
  omega

include ho

/-- A direct object is one of those there were, or the new one, or its block. -/
theorem direct_place_iff {s : Span} {g : Form} :
    ((f.footprint padding).place m a).Direct table (os ++ f.spans padding a) s g ↔
      m.Direct table os s g ∨ s = ⟨a, f.words padding⟩ ∧ g = f ∨
      f.tail = .outOfLine ∧ s = ⟨a + f.words padding, f.block.words padding⟩ ∧ g = f.block := by
  have hn := direct_place hv ho
  constructor
  · intro hg
    rcases List.mem_append.mp hg.mem with hs | hs
    · exact .inl ((direct_congr fun _ hs ↦ read_start_place hv hw hs).mp ⟨hs, hg.2⟩)
    · cases ht : f.tail with
      | inline =>
        simp only [Form.spans, ht, List.mem_singleton] at hs
        subst hs
        exact .inr (.inl ⟨rfl, Option.some.inj (hg.2.symm.trans hn.2)⟩)
      | outOfLine =>
        simp only [Form.spans, ht, List.mem_cons, List.not_mem_nil, or_false] at hs
        rcases hs with rfl | rfl
        · exact .inr (.inl ⟨rfl, Option.some.inj (hg.2.symm.trans hn.2)⟩)
        · exact .inr (.inr ⟨rfl, rfl,
            Option.some.inj (hg.2.symm.trans (direct_place_block hv ho ht).2)⟩)
  · rintro (hg | ⟨rfl, rfl⟩ | ⟨ht, rfl, rfl⟩)
    · exact ((direct_congr fun _ hs ↦ read_start_place hv hw hs).mpr hg).mono
        fun _ hs ↦ List.mem_append_left _ hs
    · exact hn.mono fun _ hs ↦ List.mem_append_right _ hs
    · exact (direct_place_block hv ho ht).mono fun _ hs ↦ List.mem_append_right _ hs

private theorem owner_place {s t : Span} {g k : Form}
    (hg' : ((f.footprint padding).place m a).Direct table (os ++ f.spans padding a) s g)
    (hk' : ((f.footprint padding).place m a).Direct table (os ++ f.spans padding a) t k)
    (hgt : g.tail = .outOfLine) (hkt : k.tail = .outOfLine)
    (he : ((f.footprint padding).place m a).read
        (g.cell ((f.footprint padding).place m a) s.start .link) =
      ((f.footprint padding).place m a).read
        (k.cell ((f.footprint padding).place m a) t.start .link)) : s = t := by
  rcases (direct_place_iff hv hw ho).mp hg' with hg | ⟨rfl, rfl⟩ | ⟨_, rfl, rfl⟩
  · rcases (direct_place_iff hv hw ho).mp hk' with hk | ⟨rfl, rfl⟩ | ⟨_, rfl, rfl⟩
    · rw [cell_place_of_mem hv hw hg, cell_place_of_mem hv hw hk,
        read_cell_place_of_mem hv hw hg (show Form.Has _ .link from hgt),
        read_cell_place_of_mem hv hw hk (show Form.Has _ .link from hkt)] at he
      exact hw.owner s g t k hg hk hgt hkt he
    · rw [cell_place_of_mem hv hw hg,
        read_cell_place_of_mem hv hw hg (show Form.Has _ .link from hgt)] at he
      exact absurd (he.trans (read_link_place hv hkt)) (link_ne_place hv hw hg hgt hkt)
    · cases hkt
  · rcases (direct_place_iff hv hw ho).mp hk' with hk | ⟨rfl, rfl⟩ | ⟨_, rfl, rfl⟩
    · rw [cell_place_of_mem hv hw hk,
        read_cell_place_of_mem hv hw hk (show Form.Has _ .link from hkt)] at he
      exact absurd (he.symm.trans (read_link_place hv hgt)) (link_ne_place hv hw hk hkt hgt)
    · rfl
    · cases hkt
  · cases hgt

private theorem header_place {s : Span} (hs : s ∈ os ++ f.spans padding a) :
    (∃ g, ((f.footprint padding).place m a).form? table s.start = some g) ∨
      ∃ b, ((f.footprint padding).place m a).read s.start =
          (Header.forward (Word.ofAddr b)).word ∧
        ((f.footprint padding).place m a).Valid table (os ++ f.spans padding a) b := by
  rcases List.mem_append.mp hs with hs | hs
  · rcases hw.header s hs with ⟨g, hg⟩ | ⟨b, hb, hvb⟩
    · exact .inl ⟨g, by rwa [form?_congr (read_start_place hv hw hs)]⟩
    · exact .inr ⟨b, by rwa [read_start_place hv hw hs], hvb.place hv hw⟩
  · have hform := (direct_place hv ho).2
    cases hft : f.tail with
    | inline =>
      simp only [Form.spans, hft, List.mem_singleton] at hs
      subst hs
      exact .inl ⟨f, hform⟩
    | outOfLine =>
      simp only [Form.spans, hft, List.mem_cons, List.not_mem_nil, or_false] at hs
      rcases hs with rfl | rfl
      · exact .inl ⟨f, hform⟩
      · exact .inl ⟨f.block, (direct_place_block hv ho hft).2⟩

private theorem blank_place {s : Span} {g : Form} {i : Nat}
    (hg : ((f.footprint padding).place m a).Direct table (os ++ f.spans padding a) s g)
    (hi : g.used ≤ i) (hi' : i < s.words) :
    ((f.footprint padding).place m a).read (s.start + i) = 0 := by
  rcases (direct_place_iff hv hw ho).mp hg with hg | ⟨rfl, rfl⟩ | ⟨hft, rfl, rfl⟩
  · rw [read_place_of_mem hv hg.mem hi']
    exact hw.blank s g hg i hi hi'
  · have := words_le_footprint g padding
    have := g.used_pos
    simp only at hi'
    apply read_place_eq_zero hv (by omega) (by omega)
    intro hgt
    simp only [Form.used, hgt] at hi
    omega
  · have h₁ := words_footprint padding hft
    have h₂ := link_lt padding hft
    simp only at hi' ⊢
    rw [Nat.add_assoc]
    apply read_place_eq_zero hv (by omega) (by omega)
    intro _
    rw [f.used_block] at hi
    omega

-- Every reference is null or valid after an object is placed; the new ones are null.
private theorem reference_place {s : Span} {g : Form} {part : Part}
    (hg : ((f.footprint padding).place m a).Direct table (os ++ f.spans padding a) s g)
    (hr : g.Refers part) :
    ((f.footprint padding).place m a).read
        (g.cell ((f.footprint padding).place m a) s.start part) = Word.null ∨
      ∃ b, ((f.footprint padding).place m a).read
          (g.cell ((f.footprint padding).place m a) s.start part) = Word.ofAddr b ∧
        ((f.footprint padding).place m a).Valid table (os ++ f.spans padding a) b := by
  rcases (direct_place_iff hv hw ho).mp hg with hg | ⟨rfl, rfl⟩ | ⟨hft, rfl, rfl⟩
  · rw [cell_place_of_mem hv hw hg, read_cell_place_of_mem hv hw hg hr.has]
    rcases hw.reference s g hg part hr with h | ⟨b, h, hvb⟩
    · exact .inl h
    · exact .inr ⟨b, h, hvb.place hv hw⟩
  · refine .inl (read_cell_place hv hr.has ?_)
    rintro rfl
    exact hr
  · exact absurd hr (hg.not_refers_of_isBlock f.isBlock_block)

/-- Memory stays well-formed when an object is placed. -/
theorem WellFormed.place :
    ((f.footprint padding).place m a).WellFormed table padding (os ++ f.spans padding a) := by
  have ht := f.tiles_spans padding a
  have hiff := fun {s g} ↦ direct_place_iff (s := s) (g := g) hv hw ho
  constructor
  case apart =>
    refine List.pairwise_append.mpr ⟨hw.apart, ht.pairwise, fun s hs t hm ↦ ?_⟩
    have := ht.mem hm
    have := hv.apart s hs
    simp only [Span.Apart, Span.stop] at *
    omega
  case nonempty =>
    intro s hs
    rcases List.mem_append.mp hs with hs | hs
    · exact hw.nonempty s hs
    · exact (ht.mem hs).2.2
  case mapped =>
    intro s hs i hi
    rw [mapped_place]
    rcases List.mem_append.mp hs with hs | hs
    · exact hw.mapped s hs i hi
    · have hmem := ht.mem hs
      simp only [Span.stop] at hmem
      rw [show s.start + i = a + (s.start + i - a) by omega]
      exact hv.mapped _ (by omega)
  case header => exact fun s hs ↦ header_place hv hw ho hs
  case extent =>
    intro s g hg
    rcases hiff.mp hg with hg | ⟨rfl, rfl⟩ | ⟨_, rfl, rfl⟩
    · exact hw.extent s g hg
    · rfl
    · rfl
  case blank => exact fun s g hg i hi hi' ↦ blank_place hv hw ho hg hi hi'
  case reference => exact fun s g hg part hr ↦ reference_place hv hw ho hg hr
  case block =>
    intro s g hg htl
    rcases hiff.mp hg with hg | ⟨rfl, rfl⟩ | ⟨hft, rfl, rfl⟩
    · obtain ⟨t, k, hk, he, hkb, hks⟩ := hw.block s g hg htl
      refine ⟨t, k, hiff.mpr (.inl hk), ?_, hkb, hks⟩
      rw [cell_place_of_mem hv hw hg,
        read_cell_place_of_mem hv hw hg (show g.Has .link from htl), he]
    · exact ⟨_, _, hiff.mpr (.inr (.inr ⟨htl, rfl, rfl⟩)), read_link_place hv htl,
        g.isBlock_block, rfl⟩
    · cases htl
  case owner => exact fun s g t k hg hk hgt hkt he ↦ owner_place hv hw ho hg hk hgt hkt he
  case inline =>
    intro s g hg hgb
    rcases hiff.mp hg with hg | ⟨rfl, rfl⟩ | ⟨hft, rfl, rfl⟩
    · exact hw.inline s g hg hgb
    · exact absurd hgb ho.notBlock
    · rfl

end Place

end Memory

end Tenure
