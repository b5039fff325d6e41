import Tenure.Heap.Access
import Tenure.Proofs.Collection

/-!
# Epochs step by step

A program that drives the nursery itself may go through the remembered set and through the roots in
any order, and promote a root more than once. Whatever the order, a root that was promoted refers to
where its object is from then on. Main statements: `ends_promotions`, the old objects are quiet
before the end of such an epoch; `ends_epochIn`, it ends as one of a collection does.
-/

namespace Tenure.Heap

/-- Promote the object that the root at a depth refers to, and update the root. -/
def promoteAt (depth : Nat) : HeapM Unit := do
  let a ← rootAt depth
  setRootAt depth (← promote a)

/-- The part of an epoch before its end, in the given orders. -/
def promotions (remembered depths : List Nat) : HeapM Unit := do
  beginEpochWith remembered
  depths.forM promoteAt

/-- An epoch that goes through the remembered set and the roots in the given orders. -/
def epochIn (remembered depths : List Nat) : HeapM Tally := do
  promotions remembered depths
  endEpoch

/-- A root that referred to `a` at the beginning of the epoch refers to `b`, where the object is
now, which is outside the nursery. -/
def Moved (h₀ : Heap) (cs : Copies) (a b : Nat) : Prop :=
  b = cs.current (h₀.memory.resolve a) ∧ h₀.nursery.region.contains b = false

/-- The roots in the middle of an epoch, where those at the depths `done` were promoted. -/
structure Rooted (h₀ : Heap) (cs : Copies) (done : List Nat) (roots : RootStack Nat) : Prop where
  size : roots.size = h₀.roots.size
  entry : ∀ (i a b : Nat), h₀.roots.toList[i]? = some a → roots.toList[i]? = some b →
    b = a ∨ Moved h₀ cs a b
  moved : ∀ i ∈ done, ∀ a b : Nat, h₀.roots.toList[i]? = some a → roots.toList[i]? = some b →
    Moved h₀ cs a b

variable {h h₀ h' : Heap} {l : Census} {cs cs' : Copies} {m : Memory} {roots : RootStack Nat}
  {a b depth : Nat} {done depths remembered : List Nat} {tally : Tally}

/-! ### The roots in the middle of an epoch -/

/-- What was promoted stays where it is. -/
theorem Moved.later (hs : h₀.Sound l) (hu : Underway h₀ l {} cs' roots h) (hc : cs <+: cs')
    (hm : Moved h₀ cs a b) : Moved h₀ cs' a b := by
  obtain ⟨ds, rfl⟩ := hc
  obtain ⟨hb, hn⟩ := hm
  refine ⟨?_, hn⟩
  rw [hu.holds.plan.current_append hs.epochOrigin (by rw [← hb]; exact hn), hb]

private theorem Rooted.refl (h₀ : Heap) : Rooted h₀ [] [] h₀.roots where
  size := rfl
  entry := by
    intro i a b ha hb
    rw [ha] at hb
    exact .inl (Option.some.inj hb).symm
  moved := by simp

private theorem Rooted.later (hs : h₀.Sound l) (hu : Underway h₀ l {} cs' roots h) (hc : cs <+: cs')
    {roots' : RootStack Nat} (hr : Rooted h₀ cs done roots') : Rooted h₀ cs' done roots' where
  size := hr.size
  entry := fun i a b ha hb ↦ (hr.entry i a b ha hb).imp id fun hm ↦ hm.later hs hu hc
  moved := fun i hi a b ha hb ↦ (hr.moved i hi a b ha hb).later hs hu hc

/-- One more root was promoted. -/
theorem Rooted.set (hr : Rooted h₀ cs done roots) (ha : h₀.roots.toList[depth]? = some a)
    (hm : Moved h₀ cs a b) {roots' : RootStack Nat}
    (he : roots'.toList = roots.toList.set depth b) :
    Rooted h₀ cs (done ++ [depth]) roots' := by
  have hsize : roots'.size = roots.size := by
    rw [← RootStack.length_toList, he, List.length_set, RootStack.length_toList]
  have hentry : ∀ i c d, h₀.roots.toList[i]? = some c → roots'.toList[i]? = some d →
      i = depth ∧ Moved h₀ cs c d ∨ i ≠ depth ∧ roots.toList[i]? = some d := by
    intro i c d hc hd
    rw [he, List.getElem?_set] at hd
    split at hd
    · next hi =>
      subst hi
      rw [ha] at hc
      cases hc
      split at hd
      · cases hd
        exact .inl ⟨rfl, hm⟩
      · cases hd
    · next hi => exact .inr ⟨Ne.symm hi, hd⟩
  refine ⟨hsize.trans hr.size, fun i c d hc hd ↦ ?_, fun i hi c d hc hd ↦ ?_⟩
  · rcases hentry i c d hc hd with ⟨-, hcd⟩ | ⟨-, hd⟩
    · exact .inr hcd
    · exact hr.entry i c d hc hd
  · rcases hentry i c d hc hd with ⟨-, hcd⟩ | ⟨hne, hd⟩
    · exact hcd
    · have hi : i ∈ done := (List.mem_append.mp hi).resolve_right fun h ↦
        hne (List.mem_singleton.mp h)
      exact hr.moved i hi c d hc hd

/-- When all roots were promoted, all of them are where they should be. -/
theorem Rooted.all (hr : Rooted h₀ cs done roots) (hall : ∀ i < h₀.roots.size, i ∈ done) :
    roots.toList = h₀.roots.toList.map (fun a ↦ cs.current (h₀.memory.resolve a)) ∧
      ∀ a ∈ h₀.roots.toList,
        h₀.nursery.region.contains (cs.current (h₀.memory.resolve a)) = false := by
  have hlen : roots.toList.length = h₀.roots.toList.length := by
    rw [RootStack.length_toList, RootStack.length_toList, hr.size]
  have hmoved : ∀ i (hi : i < h₀.roots.toList.length) (hi' : i < roots.toList.length),
      Moved h₀ cs h₀.roots.toList[i] roots.toList[i] := by
    intro i hi hi'
    refine hr.moved i (hall i ?_) _ _ (List.getElem?_eq_getElem hi) (List.getElem?_eq_getElem hi')
    rwa [← RootStack.length_toList]
  constructor
  · apply List.ext_getElem
    · rw [List.length_map, hlen]
    · intro i hi hi'
      rw [List.getElem_map]
      exact (hmoved i (by omega) hi).1
  · intro a ha
    obtain ⟨i, hi, rfl⟩ := List.getElem_of_mem ha
    rw [← (hmoved i hi (by omega)).1]
    exact (hmoved i hi (by omega)).2

/-- A root leads to where its object is now, whether it was promoted or not. -/
theorem Rooted.leads (hs : h₀.Sound l) (hu : Underway h₀ l {} cs roots h)
    {roots' : RootStack Nat} (hr : Rooted h₀ cs done roots')
    (ha : h₀.roots.toList[depth]? = some a) (hb : roots'.toList[depth]? = some b) :
    ∃ u f, (h₀.epochOrigin l).Object u f ∧ h₀.memory.resolve a = u.start ∧
      (h₀.epochOrigin l).Due u.start ∧ h.memory.Leads b (cs.current u.start) := by
  have ho := hs.epochOrigin
  obtain ⟨u, f, hf, he, hdue, hl⟩ := hu.root hs (List.mem_of_getElem? ha)
  refine ⟨u, f, hf, he, hdue, ?_⟩
  rcases hr.entry depth a b ha hb with rfl | ⟨hcur, hn⟩
  · exact hl
  · rw [he] at hcur
    rw [hcur] at hn ⊢
    obtain ⟨t, g, hst, hte⟩ := hu.holds.plan.stands ho hf hn
    rw [← hte]
    exact .here (Memory.hop?_of_form? (hu.holds.form? hst))

/-! ### The steps -/

private theorem Underway.setRoots (hu : Underway h₀ l {} cs roots h) (roots' : RootStack Nat) :
    Underway h₀ l {} cs roots' { h with roots := roots' } :=
  ⟨hu.holds, hu.table, hu.settings, hu.statistics, hu.nursery, hu.reserve, rfl, hu.epoch⟩

/-- Promoting the root at a depth leaves it where its object is. -/
theorem ends_promoteAt (hs : h₀.Sound l) (hu : Underway h₀ l {} cs roots h)
    (hr : Rooted h₀ cs done roots) (hd : depth < h₀.roots.size) :
    Ends (promoteAt depth) h
      (fun _ h' ↦ ∃ cs' roots', Underway h₀ l {} cs' roots' h' ∧
        (h₀.epochOrigin l).Later cs h.memory cs' h'.memory ∧
        Rooted h₀ cs' (done ++ [depth]) roots')
      (fun e _ ↦ EpochStuck h₀ l e) := by
  have hd₀ : depth < h₀.roots.toList.length := by rwa [RootStack.length_toList]
  have hd₁ : depth < roots.toList.length := by rwa [RootStack.length_toList, hr.size]
  have ha := List.getElem?_eq_getElem hd₀
  have hb := List.getElem?_eq_getElem hd₁
  have hget : rootAt depth h = .ok roots.toList[depth] h := by
    simp only [rootAt, hu.roots, RootStack.get_eq_ok_iff.mpr hb, attempt]
  obtain ⟨u, f, hf, he, hdue, hl⟩ := hr.leads hs hu ha hb
  rw [promoteAt, ends_bind_iff, ends_iff_of_eq_ok hget]
  apply (ends_promote hs hu hf hdue hl).bind
  rintro r h' ⟨cs', hu', hlat, hrc, hn⟩
  have hm : Moved h₀ cs' h₀.roots.toList[depth] r := by
    refine ⟨?_, hn⟩
    rw [he, hrc]
  obtain ⟨roots', hset⟩ : ∃ roots', roots.set depth r = .ok roots' := by
    rw [RootStack.set, if_pos (by rwa [hr.size])]
    exact ⟨_, rfl⟩
  have hput : setRootAt depth r h' = .ok () { h' with roots := roots' } := by
    simp only [setRootAt, hu'.roots, hset]
  rw [ends_iff_of_eq_ok hput]
  exact ⟨cs', roots', hu'.setRoots roots', hlat,
    (hr.later hs hu' hlat.copies).set ha hm (RootStack.set_eq_ok_iff.mp hset).2⟩

/-- Before the end of an epoch every old object is quiet, and the roots that were promoted are where
they should be. -/
theorem ends_promotions (hs : h.Sound l) (hrem : remembered.Perm h.nursery.remembered)
    (hd : ∀ i ∈ depths, i < h.roots.size) :
    Ends (promotions remembered depths) h
      (fun _ h' ↦ ∃ cs, Underway h l {} cs h'.roots h' ∧
        (∀ u ∈ l.old, (h.epochOrigin l).Quiet h'.memory u) ∧ Rooted h cs depths h'.roots)
      (fun e _ ↦ EpochStuck h l e) := by
  have ho := hs.epochOrigin
  rw [promotions]
  have hbegin := ends_beginEpochWith hs (fun _ ha ↦ hrem.mem_iff.mp ha) fun u hu hn ↦
    hs.remembers.quiet hu fun hm ↦ hn (hrem.mem_iff.mpr hm)
  apply hbegin.bind
  rintro _ h₁ ⟨cs₁, hu₁, hq₁⟩
  have hr₁ : Rooted h cs₁ [] h.roots := (Rooted.refl h).later hs hu₁ (List.nil_prefix)
  refine (Ends.forM (fun done h' ↦ ∃ cs roots, Underway h l {} cs roots h' ∧
    (∀ u ∈ l.old, (h.epochOrigin l).Quiet h'.memory u) ∧ Rooted h cs done roots)
    ⟨cs₁, _, hu₁, hq₁, hr₁⟩ ?_).imp ?_
  · rintro done depth rest h₂ hx ⟨cs, roots, hu, hq, hr⟩
    have hdepth : depth < h.roots.size := hd depth (by rw [hx]; simp)
    apply (ends_promoteAt hs hu hr hdepth).imp
    rintro _ h₃ ⟨cs', roots', hu', hlat, hr'⟩
    exact ⟨cs', roots', hu',
      fun u hm ↦ hlat.quiet ho hu.holds hu'.holds hm (hq u hm), hr'⟩
  · rintro _ h₂ ⟨cs, roots, hu, hq, hr⟩
    have he := hu.roots
    subst he
    exact ⟨cs, hu, hq, hr⟩

/-! ### Whole epochs -/

/-- An epoch in any order that promotes every root is completed. -/
theorem ends_epochIn (hs : h.Sound l) (hrem : remembered.Perm h.nursery.remembered)
    (hd : ∀ i, i ∈ depths ↔ i < h.roots.size) :
    Ends (epochIn remembered depths) h (Completed h l) (fun e _ ↦ EpochStuck h l e) := by
  rw [epochIn]
  apply (ends_promotions hs hrem fun i hi ↦ (hd i).mp hi).bind
  rintro _ h₁ ⟨cs, hu, hq, hr⟩
  obtain ⟨hroots, hn⟩ := hr.all fun i hi ↦ (hd i).mpr hi
  exact ends_endEpoch_of_roots hs hu hq hroots hn

end Tenure.Heap
