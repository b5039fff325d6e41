import Mathlib.Data.List.Forall2
import Mathlib.Data.List.Nodup
import Mathlib.Data.List.Perm.Subperm

/-!
# The order of encounters

A search that goes through a list of things, in which it finds further things, meets each of them
for the first time at some point. If it goes through what it meets in the order in which it meets
it, this order is settled by where it begins and by what there is to be found. Main statement:
`Search.forall₂`, two searches that correspond in this meet corresponding things in one order.
-/

namespace Tenure

variable {α β : Type} [DecidableEq α] [DecidableEq β]

/-- Meet a thing: it comes behind those that were met before, unless it is one of them. -/
def encounter (met : List α) (x : α) : List α := if x ∈ met then met else met ++ [x]

/-- What can be found from the things in `roots`. -/
inductive Findable (roots : List α) (next : α → List α) : α → Prop
  | root {x : α} : x ∈ roots → Findable roots next x
  | next {x y : α} : Findable roots next x → y ∈ next x → Findable roots next y

/-- A search that began with `roots` and went through what it met in order has met `found`. -/
structure Search (roots : List α) (next : α → List α) (found : List α) : Prop where
  order : found = (roots ++ found.flatMap next).foldl encounter []
  findable : ∀ x ∈ found, Findable roots next x

variable {met roots found : List α} {met' roots' found' : List β} {next : α → List α}
  {next' : β → List β} {xs : List α} {ys : List β} {x y : α}
  {C : α → β → Prop}

/-! ### Encounters -/

private theorem mem_encounter : x ∈ encounter met y ↔ x ∈ met ∨ x = y := by
  rw [encounter]
  split
  · next hy =>
    constructor
    · exact .inl
    · rintro (h | rfl)
      · exact h
      · exact hy
  · rw [List.mem_append, List.mem_singleton]

private theorem mem_foldl_encounter : x ∈ xs.foldl encounter met ↔ x ∈ met ∨ x ∈ xs := by
  induction xs generalizing met with
  | nil => simp
  | cons y xs ih => rw [List.foldl_cons, ih, mem_encounter, List.mem_cons, or_assoc]

private theorem nodup_foldl_encounter (h : met.Nodup) : (xs.foldl encounter met).Nodup := by
  induction xs generalizing met with
  | nil => exact h
  | cons y xs ih =>
    apply ih
    rw [encounter]
    split
    · exact h
    · next hy =>
      rw [List.nodup_append]
      refine ⟨h, List.nodup_singleton y, fun x hx z hz he ↦ hy ?_⟩
      rwa [← List.mem_singleton.mp hz, ← he]

/-- What was met first stays in front. -/
theorem prefix_foldl_encounter : met <+: xs.foldl encounter met := by
  induction xs generalizing met with
  | nil => exact List.prefix_refl met
  | cons y xs ih =>
    refine List.IsPrefix.trans ?_ ih
    rw [encounter]
    split
    · exact List.prefix_refl met
    · exact List.prefix_append met [y]

/-- Corresponding things are met in corresponding order. -/
theorem forall₂_foldl_encounter (hC : Relator.BiUnique C) (h : List.Forall₂ C xs ys)
    (hmet : List.Forall₂ C met met') :
    List.Forall₂ C (xs.foldl encounter met) (ys.foldl encounter met') := by
  induction h generalizing met met' with
  | nil => exact hmet
  | @cons x y xs ys hxy _ ih =>
    apply ih
    have hmem : x ∈ met ↔ y ∈ met' := List.rel_mem hC hxy hmet
    simp only [encounter, hmem]
    split
    · exact hmet
    · exact List.rel_append hmet (.cons hxy .nil)

/-- Renaming different things differently does not change the order. -/
theorem map_foldl_encounter {f : α → β}
    (hf : ∀ x y, x ∈ met ∨ x ∈ xs → y ∈ met ∨ y ∈ xs → f x = f y → x = y) :
    (xs.foldl encounter met).map f = (xs.map f).foldl encounter (met.map f) := by
  induction xs generalizing met with
  | nil => rfl
  | cons y xs ih =>
    have hmem : f y ∈ met.map f ↔ y ∈ met := by
      refine ⟨fun h ↦ ?_, List.mem_map_of_mem⟩
      obtain ⟨x, hx, he⟩ := List.mem_map.mp h
      rw [← hf x y (.inl hx) (.inr List.mem_cons_self) he]
      exact hx
    have hstep : (encounter met y).map f = encounter (met.map f) (f y) := by
      simp only [encounter, hmem]
      split
      · rfl
      · rw [List.map_append, List.map_singleton]
    rw [List.foldl_cons, List.map_cons, List.foldl_cons, ← hstep]
    have hsub : ∀ x, x ∈ encounter met y ∨ x ∈ xs → x ∈ met ∨ x ∈ y :: xs := by
      intro x hx
      rwa [mem_encounter, or_assoc, ← List.mem_cons] at hx
    exact ih fun x z hx hz ↦ hf x z (hsub x hx) (hsub z hz)

/-! ### Searches -/

namespace Search

private theorem nodup (hs : Search roots next found) : found.Nodup := by
  rw [hs.order]
  exact nodup_foldl_encounter List.nodup_nil

/-- What a search has met once it has gone through the first `n` things. -/
theorem prefix_take (hs : Search roots next found) (n : Nat) :
    (roots ++ (found.take n).flatMap next).foldl encounter [] <+: found := by
  have ho := hs.order
  have hsplit : found.flatMap next =
      (found.take n).flatMap next ++ (found.drop n).flatMap next := by
    rw [← List.flatMap_append, List.take_append_drop]
  rw [hsplit, ← List.append_assoc, List.foldl_append] at ho
  have hpre : (roots ++ (found.take n).flatMap next).foldl encounter [] <+:
      ((found.drop n).flatMap next).foldl encounter _ := prefix_foldl_encounter
  rwa [← ho] at hpre

/-- A search that has met no more than it has gone through is over. -/
theorem length_le (hs : Search roots next found) {n : Nat}
    (hn : ((roots ++ (found.take n).flatMap next).foldl encounter []).length ≤ n) :
    found.length ≤ n := by
  have hpre := hs.prefix_take n
  have hall : found ⊆ (roots ++ (found.take n).flatMap next).foldl encounter [] := by
    intro x hx
    have hfind := hs.findable x hx
    clear hx
    induction hfind with
    | root hr => exact mem_foldl_encounter.mpr (.inr (List.mem_append_left _ hr))
    | @next x y _ hy ih =>
      rw [List.prefix_iff_eq_take.mp hpre] at ih
      have hx : x ∈ found.take n := (List.take_prefix_take_left hn).subset ih
      refine mem_foldl_encounter.mpr (.inr (List.mem_append_right _ ?_))
      exact List.mem_flatMap.mpr ⟨x, hx, hy⟩
  exact Nat.le_trans (hs.nodup.subperm hall).length_le hn

private theorem take_eq_of_isPrefix {γ : Type} {us vs : List γ} {n : Nat} (h : us <+: vs)
    (hn : n ≤ us.length) : vs.take n = us.take n := by
  obtain ⟨rest, rfl⟩ := h
  exact List.take_append_of_le_length hn

/-- Searches from corresponding roots, with corresponding things to be found, meet corresponding
things in one order. -/
theorem forall₂ (hs : Search roots next found) (hs' : Search roots' next' found')
    (hC : Relator.BiUnique C) (hroots : List.Forall₂ C roots roots')
    (hnext : ∀ x y, C x y → List.Forall₂ C (next x) (next' y)) : List.Forall₂ C found found' := by
  suffices h : ∀ n, List.Forall₂ C (found.take n) (found'.take n) by
    have hn := h (max found.length found'.length)
    rwa [List.take_of_length_le (Nat.le_max_left ..), List.take_of_length_le (Nat.le_max_right ..)]
      at hn
  intro n
  induction n with
  | zero => exact .nil
  | succ n ih =>
    have hfound := forall₂_foldl_encounter hC
      (List.rel_append hroots (List.rel_flatMap ih hnext)) .nil
    have hp := hs.prefix_take n
    have hp' := hs'.prefix_take n
    have hlength := hfound.length_eq
    by_cases hn : n < ((roots ++ (found.take n).flatMap next).foldl encounter []).length
    · rw [take_eq_of_isPrefix hp hn, take_eq_of_isPrefix hp' (hlength ▸ hn)]
      exact List.forall₂_take (n + 1) hfound
    · have hle := hs.length_le (Nat.le_of_not_lt hn)
      have hle' := hs'.length_le (by rw [← hlength]; exact Nat.le_of_not_lt hn)
      rw [List.take_of_length_le (Nat.le_succ_of_le hle),
        List.take_of_length_le (Nat.le_succ_of_le hle')]
      rwa [List.take_of_length_le hle, List.take_of_length_le hle'] at ih

end Search

end Tenure
