import Mathlib.Algebra.Order.BigOperators.Group.List
import Mathlib.Algebra.Order.Group.Nat
import Mathlib.Algebra.Ring.Nat
import Mathlib.Data.List.Nodup
import Mathlib.Data.List.Perm.Subperm
import Tenure.Proofs.Placement

/-!
# What objects take up

An object takes up its own words and, if its tail is in a block, those of the block. Different
objects take up different words, so what some objects take up together is no more than what is in
use. Main statement: `nodup_flatMap_spansOf`, no two objects share a span.
-/

namespace Tenure

/-- The words of these spans together. -/
def Span.total (os : List Span) : Nat := (os.map Span.words).sum

namespace Span

variable {xs os : List Span}

/-- No spans take no words. -/
@[simp] theorem total_nil : total [] = 0 := rfl

/-- The first span adds its own words. -/
@[simp] theorem total_cons (s : Span) (os : List Span) : total (s :: os) = s.words + total os := by
  simp only [total, List.map_cons, List.sum_cons]

/-- The words of two lists of spans add up. -/
theorem total_append (xs ys : List Span) : total (xs ++ ys) = total xs + total ys := by
  simp only [total, List.map_append, List.sum_append]

/-- The order of the spans plays no part in their words. -/
theorem total_perm (h : xs.Perm os) : total xs = total os :=
  (h.map Span.words).sum_eq

/-- Some of the spans have no more words than all of them. -/
theorem total_le (hn : xs.Nodup) (h : ∀ s ∈ xs, s ∈ os) : total xs ≤ total os := by
  obtain ⟨ys, hp, hs⟩ := hn.subperm h
  rw [← total_perm hp]
  exact (hs.map Span.words).sum_le_sum fun _ _ ↦ Nat.zero_le _

/-- The words of spans that are made from a list add up along the list. -/
theorem total_flatMap {α : Type} (xs : List α) (f : α → List Span) :
    total (xs.flatMap f) = (xs.map fun x ↦ total (f x)).sum := by
  induction xs with
  | nil => rfl
  | cons x xs ih =>
    rw [List.flatMap_cons, total_append, List.map_cons, List.sum_cons, ih]

-- The addresses of the words that the spans have.
private theorem exists_addresses (h : os.Pairwise Span.Apart) :
    ∃ ps : Finset Nat, ps.card = total os ∧
      ∀ p ∈ ps, ∃ s ∈ os, s.start ≤ p ∧ p < s.stop := by
  induction os with
  | nil => exact ⟨∅, rfl, by simp⟩
  | cons s os ih =>
    obtain ⟨hs, h⟩ := List.pairwise_cons.mp h
    obtain ⟨ps, hc, hp⟩ := ih h
    have hd : Disjoint (Finset.Ico s.start s.stop) ps := by
      refine Finset.disjoint_left.mpr fun p hps hpp ↦ ?_
      obtain ⟨t, ht, h₁, h₂⟩ := hp p hpp
      obtain ⟨h₃, h₄⟩ := Finset.mem_Ico.mp hps
      have := hs t ht
      simp only [Span.Apart] at this
      omega
    refine ⟨Finset.Ico s.start s.stop ∪ ps, ?_, fun p hpu ↦ ?_⟩
    · rw [Finset.card_union_of_disjoint hd, Nat.card_Ico, hc, total_cons, Span.stop,
        Nat.add_sub_cancel_left]
    · rcases Finset.mem_union.mp hpu with hps | hpp
      · exact ⟨s, List.mem_cons_self, Finset.mem_Ico.mp hps⟩
      · obtain ⟨t, ht, hpt⟩ := hp p hpp
        exact ⟨t, List.mem_cons_of_mem _ ht, hpt⟩

/-- Spans that lie apart in a range have no more words than the range. -/
theorem total_le_of_apart {a b : Nat} (h : os.Pairwise Span.Apart)
    (hr : ∀ s ∈ os, a ≤ s.start ∧ s.stop ≤ b) : total os ≤ b - a := by
  obtain ⟨ps, hc, hp⟩ := exists_addresses h
  rw [← hc, ← Nat.card_Ico]
  refine Finset.card_le_card fun p hpp ↦ ?_
  obtain ⟨s, hs, h₁, h₂⟩ := hp p hpp
  have := hr s hs
  exact Finset.mem_Ico.mpr ⟨by omega, by omega⟩

end Span

/-- The spans of a tiling have the words of the range. -/
theorem Tiles.add_total {os : List Span} {a b : Nat} (h : Tiles os a b) :
    a + Span.total os = b := by
  induction os generalizing a with
  | nil => exact h
  | cons s os ih =>
    obtain ⟨rfl, -, ht⟩ := h
    rw [Span.total_cons, ← Nat.add_assoc]
    exact ih ht

/-- No span occurs twice in a tiling. -/
theorem Tiles.nodup {os : List Span} {a b : Nat} (h : Tiles os a b) : os.Nodup := by
  have hw : ∀ s ∈ os, 0 < s.words := fun s hs ↦ (h.mem hs).2.2
  refine h.pairwise.imp_of_mem fun {s t} hs _ ha he ↦ ?_
  have := hw s hs
  subst he
  simp only [Span.Apart, Span.stop] at ha
  omega

/-- The words that an object with an inline tail takes are at most those that it takes with a
block. -/
theorem Form.words_inline_le_footprint (f : Form) (padding : Bool) (h : f.tail = .outOfLine) :
    Form.words { f with tail := .inline } padding ≤ (f.footprint padding).words := by
  rw [Memory.words_footprint padding h, words_block, words_eq, words_eq]
  simp only [used, h]
  cases padding with
  | false =>
    simp only [padded, Bool.false_eq_true, if_false]
    omega
  | true =>
    simp only [padded, if_true]
    omega

namespace Memory

/-- The spans that an object takes up: its own, and that of its block if it has one. -/
def spansOf (m : Memory) (table : TypeTable) (padding : Bool) (s : Span) : List Span :=
  s :: match m.form? table s.start with
    | none => []
    | some f =>
      if f.tail = .outOfLine then
        [⟨Word.toAddr (m.read (f.cell m s.start .link)), f.block.words padding⟩]
      else []

variable {m : Memory} {table : TypeTable} {padding : Bool} {os ds : List Span} {s t : Span}
  {f : Form}

/-- An object with an inline tail takes no block. -/
theorem spansOf_inline (hd : m.Direct table os s f) (ht : f.tail = .inline) :
    m.spansOf table padding s = [s] := by
  simp only [spansOf, hd.form?, ht, reduceCtorEq, if_false]

namespace WellFormed

variable (hw : m.WellFormed table padding os)
include hw

/-- An object with its tail in a block takes up the span of the block as well. -/
theorem spansOf_outOfLine (hd : m.Direct table os s f) (ht : f.tail = .outOfLine) :
    ∃ b, m.Direct table os b f.block ∧
      m.read (f.cell m s.start .link) = Word.ofAddr b.start ∧
      m.spansOf table padding s = [s, b] := by
  obtain ⟨b, g, hg, hl, hb, hz⟩ := hw.block s f hd ht
  obtain rfl : g = f.block := by
    have htag : g.tag = blockTag := hb
    have htail := hw.inline b g hg hb
    have htype := hg.type_of_isBlock hb
    cases g
    simp only at htag htail htype hz
    simp only [Form.block, htag, htail, htype, hz]
  refine ⟨b, hg, hl, ?_⟩
  simp only [spansOf, hd.form?, ht, if_true, hl, hw.toAddr_ofAddr (.of_mem hg.mem),
    ← hw.extent b f.block hg]

/-- What an object takes up is its own span or one of a block. -/
theorem mem_spansOf (hd : m.Direct table os s f) (h : t ∈ m.spansOf table padding s) :
    t = s ∨ f.tail = .outOfLine ∧ m.Direct table os t f.block ∧
      m.read (f.cell m s.start .link) = Word.ofAddr t.start := by
  cases ht : f.tail with
  | inline =>
    rw [spansOf_inline hd ht, List.mem_singleton] at h
    exact .inl h
  | outOfLine =>
    obtain ⟨b, hb, hl, he⟩ := hw.spansOf_outOfLine hd ht
    rw [he, List.mem_cons, List.mem_singleton] at h
    rcases h with rfl | rfl
    · exact .inl rfl
    · exact .inr ⟨rfl, hb, hl⟩

/-- An object takes up the words of its footprint. -/
theorem total_spansOf (hd : m.Direct table os s f) :
    Span.total (m.spansOf table padding s) = (f.footprint padding).words := by
  cases ht : f.tail with
  | inline =>
    rw [spansOf_inline hd ht, Span.total_cons, Span.total_nil, hw.extent s f hd]
    simp only [Form.footprint, Footprint.words, ht]
  | outOfLine =>
    obtain ⟨b, hb, -, he⟩ := hw.spansOf_outOfLine hd ht
    rw [he, words_footprint padding ht, hw.extent s f hd |>.symm, hw.extent b _ hb |>.symm]
    simp only [Span.total_cons, Span.total_nil, Nat.add_zero]

/-- Different objects take up different spans. -/
theorem nodup_flatMap_spansOf (hn : ds.Nodup)
    (hd : ∀ s ∈ ds, ∃ f, m.Direct table os s f ∧ ¬ f.IsBlock) :
    (ds.flatMap (m.spansOf table padding)).Nodup := by
  refine List.nodup_flatMap.mpr ⟨fun s hs ↦ ?_, hn.pairwise_of_forall_ne fun s hs s' hs' hne ↦ ?_⟩
  · obtain ⟨f, hf, hb⟩ := hd s hs
    cases ht : f.tail with
    | inline =>
      rw [spansOf_inline hf ht]
      exact List.nodup_singleton s
    | outOfLine =>
      obtain ⟨b, hfb, -, he⟩ := hw.spansOf_outOfLine hf ht
      rw [he]
      refine List.nodup_cons.mpr ⟨fun hm ↦ ?_, List.nodup_singleton b⟩
      obtain rfl := List.mem_singleton.mp hm
      exact hb (hf.unique hfb ▸ f.isBlock_block)
  · obtain ⟨f, hf, hb⟩ := hd s hs
    obtain ⟨f', hf', hb'⟩ := hd s' hs'
    intro t ht ht'
    rcases hw.mem_spansOf hf ht with rfl | ⟨hto, hfb, hl⟩
    · rcases hw.mem_spansOf hf' ht' with rfl | ⟨-, hfb', -⟩
      · exact hne rfl
      · exact hb (hf.unique hfb' ▸ f'.isBlock_block)
    · rcases hw.mem_spansOf hf' ht' with rfl | ⟨hto', -, hl'⟩
      · exact hb' (hf'.unique hfb ▸ f.isBlock_block)
      · exact hne (hw.owner s f s' f' hf hf' hto hto' (hl.trans hl'.symm))

end WellFormed

end Memory

end Tenure
