import Tenure.Object.Layout
import Tenure.Region

/-!
# Spans of objects

A span is the range of words that was handed out for one object. Spans tile a range of words if
they follow each other without gaps, as they do in the used part of a region. Main statements: spans
of a tiling lie apart from each other, and the extents of direct objects lead from each span of a
tiling to the next.
-/

namespace Tenure

/-- The words of one object. -/
structure Span where
  start : Nat
  words : Nat
  deriving DecidableEq, Repr

/-- The address behind the last word. -/
def Span.stop (s : Span) : Nat := s.start + s.words

/-- Two spans have no word in common. -/
def Span.Apart (s t : Span) : Prop := s.stop ≤ t.start ∨ t.stop ≤ s.start

/-- One of the spans begins at the address. -/
def IsObject (os : List Span) (a : Nat) : Prop := ∃ s ∈ os, s.start = a

/-- The spans follow each other from `a` up to `b`, and none is empty. -/
def Tiles : List Span → (a b : Nat) → Prop
  | [], a, b => a = b
  | s :: os, a, b => s.start = a ∧ 0 < s.words ∧ Tiles os s.stop b

/-- The objects from `a` up to `b`, each as long as its header says. -/
def Memory.spans (m : Memory) (table : TypeTable) (padding : Bool) :
    (fuel : Nat) → (a b : Nat) → List Span
  | 0, _, _ => []
  | fuel + 1, a, b =>
    if a < b then
      match m.extent table padding a with
      | .ok words => ⟨a, words⟩ :: m.spans table padding fuel (a + words) b
      | .error _ => []
    else []

variable {os xs ys : List Span} {s t : Span} {a b c : Nat}

/-- To lie apart is mutual. -/
theorem Span.Apart.symm (h : s.Apart t) : t.Apart s := Or.symm h

/-- Spans without a common word lie apart. -/
theorem Span.apart_of_forall_ne (hs : 0 < s.words) (ht : 0 < t.words)
    (h : ∀ i < s.words, ∀ j < t.words, s.start + i ≠ t.start + j) : s.Apart t := by
  simp only [Apart, stop]
  by_cases h₁ : s.start + s.words ≤ t.start
  · exact .inl h₁
  · by_cases h₂ : t.start + t.words ≤ s.start
    · exact .inr h₂
    · by_cases hlt : s.start ≤ t.start
      · exact absurd (by omega) (h (t.start - s.start) (by omega) 0 ht)
      · exact absurd (by omega) (h 0 hs (s.start - t.start) (by omega))

/-- Each span of a list begins an object of it. -/
theorem IsObject.of_mem (h : s ∈ os) : IsObject os s.start := ⟨s, h, rfl⟩

/-- No spans tile just the empty range. -/
theorem tiles_nil : Tiles [] a b ↔ a = b := Iff.rfl

/-- One span tiles just its own words. -/
theorem tiles_singleton : Tiles [s] a b ↔ s.start = a ∧ 0 < s.words ∧ s.stop = b := Iff.rfl

/-- Tilings of neighbouring ranges make up one of both. -/
theorem tiles_append : Tiles (xs ++ ys) a c ↔ ∃ b, Tiles xs a b ∧ Tiles ys b c := by
  induction xs generalizing a with
  | nil => simp [Tiles]
  | cons s xs ih =>
    simp only [List.cons_append, Tiles, ih]
    constructor
    · rintro ⟨hs, hw, b, hx, hy⟩
      exact ⟨b, ⟨hs, hw, hx⟩, hy⟩
    · rintro ⟨b, ⟨hs, hw, hx⟩, hy⟩
      exact ⟨hs, hw, b, hx, hy⟩

/-- A range that is tiled does not end before it begins. -/
theorem Tiles.le (h : Tiles os a b) : a ≤ b := by
  induction os generalizing a with
  | nil => exact Nat.le_of_eq h
  | cons s os ih =>
    obtain ⟨rfl, _, ht⟩ := h
    have := ih ht
    simp only [Span.stop] at this
    omega

/-- A tiling ends in one place. -/
theorem Tiles.unique (h : Tiles os a b) (h' : Tiles os a c) : b = c := by
  induction os generalizing a with
  | nil => exact Eq.trans (Eq.symm h) h'
  | cons s os ih => exact ih h.2.2 h'.2.2

/-- Each span of a tiling lies in the range and has a word. -/
theorem Tiles.mem (h : Tiles os a b) (hs : s ∈ os) : a ≤ s.start ∧ s.stop ≤ b ∧ 0 < s.words := by
  induction os generalizing a with
  | nil => cases hs
  | cons t os ih =>
    obtain ⟨rfl, hw, ht⟩ := h
    rcases List.mem_cons.mp hs with rfl | hm
    · exact ⟨Nat.le_refl _, ht.le, hw⟩
    · obtain ⟨h₁, h₂, h₃⟩ := ih ht hm
      simp only [Span.stop] at h₁
      exact ⟨by omega, h₂, h₃⟩

/-- Each word of the range belongs to a span. -/
theorem Tiles.exists_mem {p : Nat} (h : Tiles os a b) (ha : a ≤ p) (hb : p < b) :
    ∃ s ∈ os, ∃ i < s.words, p = s.start + i := by
  induction os generalizing a with
  | nil =>
    obtain rfl : a = b := h
    omega
  | cons t os ih =>
    obtain ⟨rfl, _, ht⟩ := h
    by_cases hp : p < t.stop
    · exact ⟨t, List.mem_cons_self, p - t.start, by rw [Span.stop] at hp; omega, by omega⟩
    · obtain ⟨s, hs, h⟩ := ih ht (by omega)
      exact ⟨s, List.mem_cons_of_mem _ hs, h⟩

/-- The spans of a tiling lie apart. -/
theorem Tiles.pairwise (h : Tiles os a b) : os.Pairwise Span.Apart := by
  induction os generalizing a with
  | nil => exact .nil
  | cons s os ih =>
    obtain ⟨rfl, _, ht⟩ := h
    exact .cons (fun t hm ↦ .inl (ht.mem hm).1) (ih ht)

/-- Two spans that have a word in common are the same. -/
theorem eq_of_common (h : os.Pairwise Span.Apart) (hs : s ∈ os) (ht : t ∈ os) {i j : Nat}
    (hi : i < s.words) (hj : j < t.words) (he : s.start + i = t.start + j) : s = t := by
  have ha : s = t ∨ s.Apart t := by
    obtain ⟨n, hn, rfl⟩ := List.getElem_of_mem hs
    obtain ⟨k, hk, rfl⟩ := List.getElem_of_mem ht
    have hg := List.pairwise_iff_getElem.mp h
    rcases Nat.lt_trichotomy n k with hlt | rfl | hlt
    · exact .inr (hg n k hn hk hlt)
    · exact .inl rfl
    · exact .inr (hg k n hk hn hlt).symm
  rcases ha with rfl | ha
  · rfl
  · simp only [Span.Apart, Span.stop] at ha
    omega

/-- Extents lead from each direct object of a tiling to the next. -/
theorem Tiles.spans_eq {m : Memory} {table : TypeTable} {padding : Bool} {fuel : Nat}
    (h : Tiles os a b) (hf : b - a ≤ fuel)
    (hd : ∀ s ∈ os, m.extent table padding s.start = .ok s.words) :
    m.spans table padding fuel a b = os := by
  induction os generalizing a fuel with
  | nil =>
    have hab : a = b := h
    cases fuel with
    | zero => rfl
    | succ fuel => rw [Memory.spans, if_neg (by omega)]
  | cons s os ih =>
    obtain ⟨rfl, hw, ht⟩ := h
    have hle := ht.le
    simp only [Span.stop] at hle ht
    cases fuel with
    | zero => omega
    | succ fuel =>
      rw [Memory.spans, if_pos (by omega), hd s (List.mem_cons_self ..)]
      have hrest : m.spans table padding fuel (s.start + s.words) b = os :=
        ih ht (by omega) fun t hm ↦ hd t (List.mem_cons_of_mem _ hm)
      simp only [hrest]

/-! ### Regions -/

namespace Region

/-- No address lies in both regions. -/
def Apart (r r' : Region) : Prop := ∀ a, r.contains a = true → r'.contains a = false

/-- The regions lie apart in the memory, and what is not in use is zero. -/
structure Separate (m : Memory) (rs : List Region) : Prop where
  apart : rs.Pairwise Apart
  mapped : ∀ r ∈ rs, ∀ i < r.capacity, m.Mapped (r.start + i)
  vacant : ∀ r ∈ rs, ∀ i, r.cursor ≤ i → i < r.capacity → m.read (r.start + i) = 0

variable {m : Memory} {r r' q : Region} {rs rs' : List Region}

/-- To lie apart is mutual. -/
theorem Apart.symm (h : r.Apart r') : r'.Apart r := by
  intro a ha
  cases hc : r.contains a with
  | false => rfl
  | true => rw [← h a hc, ha]

/-- Three regions lie apart just if each two of them do. -/
theorem pairwise_apart_iff :
    [r, r', q].Pairwise Apart ↔ r.Apart r' ∧ r.Apart q ∧ r'.Apart q := by
  simp [and_assoc]

/-- The order of the regions does not matter. -/
theorem Separate.perm (h : Separate m rs) (hp : rs.Perm rs') : Separate m rs' where
  apart := (hp.pairwise_iff Apart.symm).mp h.apart
  mapped := fun r hr ↦ h.mapped r (hp.mem_iff.mpr hr)
  vacant := fun r hr ↦ h.vacant r (hp.mem_iff.mpr hr)

end Region

end Tenure
