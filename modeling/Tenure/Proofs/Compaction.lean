import Mathlib.Data.Set.Card
import Tenure.Proofs.Packing

/-!
# Compaction

A scavenge may move tails inline or leave them in blocks of their own. Either way it keeps the same
graph, and each tail that is moved saves its link and the header of its block. Main statement:
`Sound.scavenge_compacts`, which compares both scavenges of one heap.
-/

namespace Tenure.Heap

/-- The heap with the choice made whether tails move inline when their owner is copied. -/
def compacting (h : Heap) (choice : Bool) : Heap := { h with settings.compactTails := choice }

/-- The copies that a scavenge makes for the object at `d`. -/
def copyCount (h : Heap) (d : Nat) : Nat :=
  if (h.memory.header d).tailBits = .outOfLine ∧ h.settings.compactTails = false then 2 else 1

/-- The nodes of the graph whose tail is in a block. -/
def blockOwners (h : Heap) : Set Nat :=
  {d | h.Live d ∧ (h.memory.header d).tailBits = .outOfLine}

variable {h h' : Heap} {l : Census} {os ts : List Span} {cs : Copies} {m : Memory} {s : Span}
  {f : Form} {φ : Nat → Nat} {d : Nat} {choice : Bool}

/-! ### The choice -/

/-- The choice is none of the invariant. -/
theorem Sound.compacting (hs : h.Sound l) : (h.compacting choice).Sound l where
  toSpaced := ⟨hs.apart, hs.mapped, hs.vacant, hs.reserve, hs.capacity⟩
  young := hs.young
  old := hs.old
  wellFormed := hs.wellFormed
  links := hs.links
  roots := hs.roots
  remembers := ⟨hs.remembers.old, hs.remembers.slots, hs.remembers.husks⟩
  epoch := hs.epoch

/-- The graph does not depend on the choice. -/
theorem live_compacting_iff : (h.compacting choice).Live d ↔ h.Live d := by
  constructor <;> intro hd <;> induction hd with
  | root ha => exact .root ha
  | field _ hc he ih => exact .field ih hc he

private theorem SameGraph.of_compacting (hg : SameGraph φ (h.compacting choice) h') :
    Renames φ h h' where
  table := hg.table
  roots := hg.roots
  injective := fun d e hd he ↦
    hg.injective d e (live_compacting_iff.mpr hd) (live_compacting_iff.mpr he)
  view := fun d hd ↦ hg.view d (live_compacting_iff.mpr hd)
  tag := fun d hd ↦ hg.tag d (live_compacting_iff.mpr hd)
  size := fun d hd ↦ hg.size d (live_compacting_iff.mpr hd)

/-! ### The number of copies -/

/-- An object is copied with its block, unless its tail is to be moved inline. -/
theorem copyCount_eq (hw : h.memory.WellFormed h.table h.settings.padding os)
    (hf : h.memory.Direct h.table os s f)
    (ht : f.tail = .outOfLine → h.settings.compactTails = false) :
    h.copyCount s.start = (h.memory.spansOf h.table h.settings.padding s).length := by
  rw [copyCount, Memory.tailBits_of_form? hf.form?]
  cases htl : f.tail with
  | inline => simp [Memory.spansOf_inline hf htl]
  | outOfLine =>
    obtain ⟨b, -, -, he⟩ := hw.spansOf_outOfLine hf htl
    simp [he, ht htl]

/-- The number of copies does not depend on where the object is. -/
theorem SameGraph.copyCount_eq (hg : SameGraph φ h h') (hd : h.Live d) :
    h'.copyCount (φ d) = h.copyCount d := by
  simp only [copyCount, hg.settings]
  rcases hg.tail d hd with ht | ⟨hc, -, -⟩
  · rw [ht]
  · simp [hc]

/-- The objects that there are can be counted in the graph. -/
theorem Kept.length_eq (hk : h.Kept ts) :
    ts.length = ∑ᶠ d ∈ {d | h.Live d}, h.copyCount d := by
  rw [← hk.sum_nodes, ← (hk.closed.perm hk.wellFormed).length_eq, List.length_flatMap]
  refine congrArg List.sum (List.map_congr_left fun t ht ↦ ?_)
  obtain ⟨hm, g, hg, -⟩ := hk.closed.mem_nodes.mp ht
  exact (Heap.copyCount_eq hk.wellFormed hg (hk.tail t g hg)).symm

/-- The copies that a scavenge makes can be counted in the heap before it. -/
theorem Scavenged.length_eq (hs : h.Sound { old := os }) (hp : Scavenged h os cs m h') :
    cs.length = ∑ᶠ d ∈ {d | h.Live d}, h.copyCount d := by
  have hg := hp.sameGraph hs
  rw [← hg.finsum_eq fun d hd ↦ hg.copyCount_eq hd, ← (hp.kept hs).length_eq]
  exact (List.length_map _).symm

/-! ### What is saved -/

section Saved

variable (hs : h.Sound l)
include hs

/-- An object whose tail moves inline needs no link and no header for a block any more. -/
theorem Live.copyWords_le (hd : h.Live d) :
    (h.compacting true).copyWords d +
        2 * (if (h.memory.header d).tailBits = .outOfLine then 1 else 0) ≤
      (h.compacting false).copyWords d := by
  obtain ⟨s, f, hf, rfl, -⟩ := hd.object hs
  have hform := hf.form?
  simp only [copyWords, Heap.compacting, Memory.tagBits_of_form? hform,
    (Memory.form?_eq_some_iff.mp hform).2, Memory.tailBits_of_form? hform]
  cases f.tail with
  | inline => simp
  | outOfLine =>
    simp only [reduceCtorEq, or_true, Bool.false_eq_true, or_self, if_true, if_false,
      TypeInfo.words, padded, TypeInfo.fields, TypeInfo.tailBlock]
    split <;> omega

/-- The owners of blocks, one by one. -/
theorem ncard_blockOwners : h.blockOwners.ncard =
    ∑ᶠ d ∈ {d | h.Live d}, if (h.memory.header d).tailBits = .outOfLine then 1 else 0 := by
  have hfin := Live.finite hs
  have hset : h.blockOwners =
      ↑(hfin.toFinset.filter fun d ↦ (h.memory.header d).tailBits = .outOfLine) := by
    ext d
    simp [blockOwners]
  rw [hset, Set.ncard_coe_finset, Finset.card_filter, finsum_mem_eq_finite_toFinset_sum _ hfin]

/-- Two words are saved for each tail that moves inline. -/
theorem liveWords_compacting_le :
    (h.compacting true).liveWords + 2 * h.blockOwners.ncard ≤ (h.compacting false).liveWords := by
  have hfin := Live.finite hs
  simp only [liveWords, live_compacting_iff]
  rw [ncard_blockOwners hs, finsum_mem_eq_finite_toFinset_sum _ hfin,
    finsum_mem_eq_finite_toFinset_sum _ hfin, finsum_mem_eq_finite_toFinset_sum _ hfin,
    Finset.mul_sum, ← Finset.sum_add_distrib]
  exact Finset.sum_le_sum fun d hd ↦ Live.copyWords_le hs (hfin.mem_toFinset.mp hd)

/-- Each owner of a block saves just one copy. -/
theorem copyCount_compacting : ∑ᶠ d ∈ {d | h.Live d}, (h.compacting false).copyCount d =
    (∑ᶠ d ∈ {d | h.Live d}, (h.compacting true).copyCount d) + h.blockOwners.ncard := by
  have hfin := Live.finite hs
  rw [ncard_blockOwners hs, finsum_mem_eq_finite_toFinset_sum _ hfin,
    finsum_mem_eq_finite_toFinset_sum _ hfin, finsum_mem_eq_finite_toFinset_sum _ hfin,
    ← Finset.sum_add_distrib]
  refine Finset.sum_congr rfl fun d _ ↦ ?_
  simp only [copyCount, compacting]
  split <;> simp_all

end Saved

/-! ### Both scavenges -/

/-- A heap whose tails move inline is left with no block. -/
theorem Kept.inline (hk : h.Kept ts) (hc : h.settings.compactTails = true) {t : Span}
    (ht : t ∈ ts) : (h.memory.header t.start).tailBits = .inline ∧
      (h.memory.header t.start).tagBits ≠ blockTag := by
  have hinline : ∀ s f, h.memory.Direct h.table ts s f → f.tail = .inline := by
    intro s f hf
    cases htl : f.tail with
    | inline => rfl
    | outOfLine =>
      have hn := hk.tail s f hf htl
      rw [hc] at hn
      cases hn
  obtain ⟨g, hg⟩ := hk.direct t ht
  rw [Memory.tailBits_of_form? hg.form?, Memory.tagBits_of_form? hg.form?]
  refine ⟨hinline t g hg, fun hb ↦ ?_⟩
  obtain ⟨s, f, hf, -, htl, -⟩ := hk.block t g hg hb
  rw [hinline s f hf] at htl
  cases htl

/-- Both ways to scavenge a heap succeed and give the same graph. Where tails move inline no block
is left, and each tail that was in one saves two words at least and one copy. -/
theorem Sound.scavenge_compacts (hs : h.Sound { old := os }) :
    ∃ kept hk moved hm φ ψ ts,
      scavenge (h.compacting false) = .ok kept hk ∧ scavenge (h.compacting true) = .ok moved hm ∧
      Renames φ h hk ∧ Renames ψ hk hm ∧
      hm.Packed ts ∧ (∀ t ∈ ts, (hm.memory.header t.start).tailBits = .inline ∧
        (hm.memory.header t.start).tagBits ≠ blockTag) ∧
      h.blockOwners.Finite ∧
      hm.semispace.active.cursor + 2 * h.blockOwners.ncard ≤ hk.semispace.active.cursor ∧
      kept.objects = moved.objects + h.blockOwners.ncard := by
  have hkeep : (h.compacting false).Sound { old := os } := hs.compacting
  have hmove : (h.compacting true).Sound { old := os } := hs.compacting
  obtain ⟨kept, hk, hek, csk, mk, hpk, -, rfl⟩ := (ends_scavenge hkeep).exists_eq_ok
  obtain ⟨moved, hm, hem, csm, mm, hpm, -, rfl⟩ := (ends_scavenge hmove).exists_eq_ok
  have hgk := (hpk.sameGraph hkeep).of_compacting
  obtain ⟨ψ, -, hψ⟩ := hgk.exists_between (hpm.sameGraph hmove).of_compacting
  have hkm := hpm.kept hmove
  have hcompact : hm.settings.compactTails = true := by
    rw [hpm.settings]
    rfl
  refine ⟨_, hk, _, hm, _, ψ, _, hek, hem, hgk, hψ, hkm.packed, fun t ht ↦ hkm.inline hcompact ht,
    (Live.finite hs).subset fun d hd ↦ hd.1, ?_, ?_⟩
  · rw [hpk.cursor_eq hkeep, hpm.cursor_eq hmove]
    exact liveWords_compacting_le hs
  · have hlk := hpk.length_eq hkeep
    have hlm := hpm.length_eq hmove
    simp only [live_compacting_iff] at hlk hlm
    rw [hlk, hlm]
    exact copyCount_compacting hs

/-- How many objects a scavenge copies. -/
def scavengedObjects? (h : Heap) : Option Nat :=
  match scavenge h with
  | .ok tally _ => some tally.objects
  | .error _ _ => none

open Mutator in
/-- An epoch after which two objects are nodes whose tails are in blocks. -/
theorem compacts_sample : ∃ h os, h.Sound { old := os } ∧ h.blockOwners.ncard = 2 ∧
    ∃ kept hk moved hm φ ψ ts,
      scavenge (h.compacting false) = .ok kept hk ∧ scavenge (h.compacting true) = .ok moved hm ∧
      Renames φ h hk ∧ Renames ψ hk hm ∧ hm.Packed ts ∧
      hm.semispace.active.cursor + 4 ≤ hk.semispace.active.cursor ∧
      kept.objects = moved.objects + 2 := by
  obtain ⟨s, l, hs, hr⟩ : ∃ s l,
      Sample.session { Sample.smallSettings with compactTails := false } = some s ∧
      Reaches { Sample.smallSettings with compactTails := false } Sample.nodeTable s l :=
    Sample.reaches_of_isSome (by decide +kernel)
  have hc : (Sample.session { Sample.smallSettings with compactTails := false }).map (fun s ↦
      after? promoteNursery (fun h ↦ ((h.compacting false).scavengedObjects?,
        (h.compacting true).scavengedObjects?)) s.heap) = some (some (some 4, some 2)) := by
    decide +kernel
  rw [hs, Option.map_some, Option.some.injEq] at hc
  obtain ⟨h, he, hcount⟩ := exists_of_after? hc
  obtain ⟨⟨l', hcol⟩, -⟩ := (ends_promoteNursery hr.sound.heap).of_eq_ok he
  obtain ⟨kept, hk, moved, hm, φ, ψ, ts, hek, hem, hφ, hψ, hp, -, -, hwords, hobjects⟩ :=
    hcol.sound_old.scavenge_compacts
  simp only [scavengedObjects?, hek, hem, Prod.mk.injEq, Option.some.injEq] at hcount
  have htwo : h.blockOwners.ncard = 2 := by omega
  rw [htwo] at hwords hobjects
  exact ⟨h, l'.old, hcol.sound_old, htwo, kept, hk, moved, hm, φ, ψ, ts, hek, hem, hφ, hψ, hp,
    hwords, hobjects⟩

end Tenure.Heap
