import Tenure.Proofs.Soundness

/-!
# The census along a run

From one heap to a later one the census changes in a known way: a generation that was not emptied
keeps its objects, and those appended to it are as long as their headers say. Main statement:
`Follows.next_eq`, the next census can be read off the two heaps.
-/

namespace Tenure

namespace Heap

/-- How often the nursery was emptied. -/
def epochs (h : Heap) : Nat := h.statistics.minor

/-- How often the halves of the semispace changed places. -/
def swaps (h : Heap) : Nat := h.statistics.scavenges + h.statistics.concurrent

/-- The spans of the objects in the words of a region from number `first` on. -/
def spansFrom (h : Heap) (r : Region) (first : Nat) : List Span :=
  h.memory.spans h.table h.settings.padding r.capacity (r.start + first) (r.start + r.cursor)

end Heap

/-- The census of `h'`, which follows `h` with census `l` in a run. A generation that was emptied in
between holds what was put into it since; any other holds in addition what was appended to it. -/
def Census.next (l : Census) (h h' : Heap) : Census where
  young :=
    if h'.epochs = h.epochs then
      l.young ++ h'.spansFrom h'.nursery.region h.nursery.region.cursor
    else h'.spansFrom h'.nursery.region 0
  old :=
    if h'.swaps = h.swaps then
      l.old ++ h'.spansFrom h'.semispace.active h.semispace.active.cursor
    else h'.spansFrom h'.semispace.active 0

namespace Heap

/-- How the census of `h'` comes from that of `h`. -/
structure Follows (h : Heap) (l : Census) (h' : Heap) (l' : Census) : Prop where
  young : h'.epochs = h.epochs ∧ h'.nursery.region.start = h.nursery.region.start ∧
      (∃ ys, l'.young = l.young ++ ys ∧ ∀ s ∈ ys, ∃ f, h'.Object l' s f) ∨
    h'.epochs ≠ h.epochs ∧ ∀ s ∈ l'.young, ∃ f, h'.Object l' s f
  old : h'.swaps = h.swaps ∧ h'.semispace.active.start = h.semispace.active.start ∧
      (∃ xs, l'.old = l.old ++ xs ∧ ∀ s ∈ xs, ∃ f, h'.Object l' s f) ∨
    h'.swaps ≠ h.swaps ∧ ∀ s ∈ l'.old, ∃ f, h'.Object l' s f

variable {h h' : Heap} {l l' : Census} {os : List Span} {r : Region} {first : Nat}

/-- Direct objects that fill the words of a region are found there. -/
theorem Sound.spansFrom_eq (hs : h.Sound l) (hr : first ≤ r.cursor)
    (ht : Tiles os (r.start + first) (r.start + r.cursor))
    (hd : ∀ s ∈ os, ∃ f, h.Object l s f) : h.spansFrom r first = os := by
  apply ht.spans_eq (by have := r.cursor_le; omega)
  intro s hm
  obtain ⟨f, hf⟩ := hd s hm
  rw [Memory.extent_of_form? _ hf.form?, hs.wellFormed.extent s f hf]

/-- The next census can be read off the two heaps. -/
theorem Follows.next_eq (hf : Follows h l h' l') (hs : h.Sound l) (hs' : h'.Sound l') :
    l.next h h' = l' := by
  have hy : (l.next h h').young = l'.young := by
    have ht := hs'.young
    rcases hf.young with ⟨he, hst, ys, hys, hd⟩ | ⟨he, hd⟩
    · rw [hys, hst, tiles_append] at ht
      obtain ⟨b, ht₁, ht₂⟩ := ht
      obtain rfl := ht₁.unique hs.young
      have hle := ht₂.le
      rw [← hst] at ht₂
      rw [Census.next, if_pos he, hys, hs'.spansFrom_eq (by omega) ht₂ hd]
    · rw [Census.next, if_neg he, hs'.spansFrom_eq (Nat.zero_le _) ht hd]
  have ho : (l.next h h').old = l'.old := by
    have ht := hs'.old
    rcases hf.old with ⟨he, hst, xs, hxs, hd⟩ | ⟨he, hd⟩
    · rw [hxs, hst, tiles_append] at ht
      obtain ⟨b, ht₁, ht₂⟩ := ht
      obtain rfl := ht₁.unique hs.old
      have hle := ht₂.le
      rw [← hst] at ht₂
      rw [Census.next, if_pos he, hxs, hs'.spansFrom_eq (by omega) ht₂ hd]
    · rw [Census.next, if_neg he, hs'.spansFrom_eq (Nat.zero_le _) ht hd]
  cases l'
  simp only at hy ho
  rw [← hy, ← ho]

/-- The census stays as it is while nothing is allocated and nothing is collected. -/
theorem Follows.refl (h : Heap) (l : Census) : Follows h l h l where
  young := .inl ⟨rfl, rfl, [], by simp, by simp⟩
  old := .inl ⟨rfl, rfl, [], by simp, by simp⟩

/-- The census stays as it is if no generation is touched. -/
theorem Follows.of_eq (he : h'.statistics = h.statistics)
    (hn : h'.nursery.region = h.nursery.region) (ha : h'.semispace = h.semispace) :
    Follows h l h' l where
  young := .inl ⟨by rw [epochs, epochs, he], by rw [hn], [], by simp, by simp⟩
  old := .inl ⟨by rw [swaps, swaps, he], by rw [ha], [], by simp, by simp⟩

end Heap

end Tenure
