import Tenure.Word

/-!
# Paged words

A word for every number, all zero at first. Words are kept in pages, and a page only up to the last
of its words that was written, so numbers that were never written cost next to nothing. Main
statement: `get_set`, under each number is the word last written there.
-/

namespace Tenure

/-- The words of a page. -/
def pageWords : Nat := 1024

/-- A word for every number. -/
structure Pages where
  stored : Array (Array Word) := #[]

namespace Pages

/-- Change entry `i` of an array in which a missing entry counts as `d`. -/
@[inline] def update {α : Type} (xs : Array α) (i : Nat) (d : α) (f : α → α) : Array α :=
  (if i < xs.size then xs else xs ++ Array.replicate (i + 1 - xs.size) d).modify i f

/-- The word under number `i`. -/
def get (p : Pages) (i : Nat) : Word :=
  (p.stored.getD (i / pageWords) #[]).getD (i % pageWords) 0

/-- Replace the word under number `i`. -/
def set (p : Pages) (i : Nat) (w : Word) : Pages :=
  ⟨update p.stored (i / pageWords) #[] fun page => update page (i % pageWords) 0 fun _ => w⟩

/-- Without pages, every word is zero. -/
@[simp] theorem get_empty (i : Nat) : ({} : Pages).get i = 0 := rfl

private theorem getD_append_replicate {α : Type} (xs : Array α) (n j : Nat) (d : α) :
    (xs ++ Array.replicate n d).getD j d = xs.getD j d := by
  simp only [Array.getD_eq_getD_getElem?, Array.getElem?_append]
  split
  · rfl
  · rw [Array.getElem?_replicate, Array.getElem?_eq_none (by omega)]
    split <;> rfl

private theorem getD_modify {α : Type} (xs : Array α) {i : Nat} (j : Nat) (d : α) (f : α → α)
    (h : i < xs.size) :
    (xs.modify i f).getD j d = if i = j then f (xs.getD i d) else xs.getD j d := by
  simp only [Array.getD_eq_getD_getElem?, Array.getElem?_modify]
  split
  · next hij =>
    subst hij
    simp [h]
  · rfl

/-- An update is seen at its own entry only. -/
theorem getD_update {α : Type} (xs : Array α) (i j : Nat) (d : α) (f : α → α) :
    (update xs i d f).getD j d = if i = j then f (xs.getD i d) else xs.getD j d := by
  by_cases h : i < xs.size
  · rw [update, if_pos h, getD_modify xs j d f h]
  · rw [update, if_neg h,
      getD_modify _ j d f (by simp only [Array.size_append, Array.size_replicate]; omega)]
    simp only [getD_append_replicate]

/-- Under each number is the word last written there. -/
theorem get_set (p : Pages) (i j : Nat) (w : Word) :
    (p.set i w).get j = if i = j then w else p.get j := by
  simp only [get, set, getD_update]
  by_cases hp : i / pageWords = j / pageWords
  · rw [if_pos hp, getD_update, hp]
    by_cases hr : i % pageWords = j % pageWords
    · rw [if_pos hr, if_pos]
      rw [← Nat.div_add_mod i pageWords, ← Nat.div_add_mod j pageWords, hp, hr]
    · rw [if_neg hr, if_neg]
      exact fun hij => hr (by rw [hij])
  · rw [if_neg hp, if_neg]
    exact fun hij => hp (by rw [hij])

end Pages

end Tenure
