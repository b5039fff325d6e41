import Tenure.Heap.Scavenge
import Tenure.Proofs.Pass.Room
import Tenure.Proofs.Pass.Transfer

/-!
# Scavenges

A scavenge is one pass from the active half to the reserve, with an empty nursery and nothing in the
target before. The reserve is as large as the active half, so it has room for all copies. Main
statement: `ends_scavenge`, a scavenge succeeds and ends as described by `Scavenged`.
-/

namespace Tenure.Heap

/-- The origin of the pass of a scavenge. -/
def scavengeOrigin (h : Heap) (os : List Span) : Origin where
  pass := {
    table := h.table
    source := h.semispace.active
    padding := h.settings.padding
    compact := h.settings.compactTails }
  memory := h.memory
  target := h.semispace.reserve
  inside := os
  outside := []
  starts := h.roots.toList

/-- What a scavenge makes of a heap: `m` is the memory before the old half is cleared. -/
structure Scavenged (h : Heap) (os : List Span) (cs : Copies) (m : Memory) (h' : Heap) : Prop where
  pass : (h.scavengeOrigin os).Over cs m h'.semispace.active
  memory : h'.memory = m.clear h.semispace.active.start h.semispace.active.cursor
  table : h'.table = h.table
  settings : h'.settings = h.settings
  nursery : h'.nursery = h.nursery
  reserve : h'.semispace.reserve = h.semispace.active.reset
  roots : h'.roots.toList = h.roots.toList.map fun a ↦ cs.current (h.memory.resolve a)
  clean : ∀ a ∈ h.roots.toList,
    h.semispace.active.contains (cs.current (h.memory.resolve a)) = false
  /-- The copies were made in the order in which the roots and the copies refer to their objects. -/
  order : (h.scavengeOrigin os).Meets []
    (h.roots.toList.map h.memory.resolve ++ cs.flatMap fun c ↦ (h.scavengeOrigin os).found c.1) cs

variable {h h' : Heap} {os : List Span} {cs : Copies} {m : Memory} {a : Nat}

/-- A scavenge begins with the objects of the active half. -/
theorem objects_scavengeOrigin (h : Heap) (os : List Span) :
    (h.scavengeOrigin os).objects = os := List.append_nil os

/-- A scavenge reads their forms as the heap does. -/
theorem object_scavengeOrigin {s : Span} {f : Form} :
    (h.scavengeOrigin os).Object s f ↔ h.Object { old := os } s f := by
  rw [Origin.Object, objects_scavengeOrigin]
  rfl

/-- The target of a scavenge is empty. -/
theorem Sound.filled_scavengeOrigin (hs : h.Sound { old := os }) :
    (h.scavengeOrigin os).Filled := by
  show h.semispace.reserve.start = h.semispace.reserve.start + h.semispace.reserve.cursor
  rw [hs.reserve, Nat.add_zero]

/-- A sound heap with an empty nursery is an origin for a scavenge. -/
theorem Sound.scavengeOrigin (hs : h.Sound { old := os }) : (h.scavengeOrigin os).Sound where
  wellFormed := by
    rw [objects_scavengeOrigin]
    exact hs.wellFormed
  inside := fun _ hm ↦ ⟨(hs.old.mem hm).1, (hs.old.mem hm).2.1⟩
  outside := fun _ hm ↦ nomatch hm
  apart := hs.active_apart_reserve
  mapped := hs.mapped _ (by simp [regions, Heap.scavengeOrigin])
  vacant := hs.vacant _ (by simp [regions, Heap.scavengeOrigin])
  links := by
    intro s f hf ht
    have hf := object_scavengeOrigin.mp hf
    obtain ⟨b, k, hk, href⟩ := hs.wellFormed.toRef?_link hf ht
    show (∀ a, Word.toRef? (h.memory.read (f.cell h.memory s.start .link)) = some a →
      h.semispace.active.contains a = false) ↔ h.semispace.active.contains s.start = false
    have hb := hs.contains_old hk.mem (hs.wellFormed.nonempty _ hk.mem)
    have ho := hs.contains_old hf.mem (hs.wellFormed.nonempty _ hf.mem)
    rw [Nat.add_zero] at hb ho
    simp only [href, Option.some.injEq, forall_eq', hb, ho]
  starts := by
    intro a ha
    rw [objects_scavengeOrigin]
    exact .inl (hs.roots a ha)

/-- The reserve has room for all copies. -/
theorem Sound.not_stuck_scavengeOrigin (hs : h.Sound { old := os }) {e : Fault} {st : CopyState} :
    ¬ (h.scavengeOrigin os).Stuck e st := by
  intro hstuck
  have hlt : h.semispace.reserve.free < h.semispace.active.cursor :=
    hstuck.lt hs.scavengeOrigin
  have := h.semispace.active.cursor_le
  rw [Region.free, hs.reserve, hs.capacity] at hlt
  omega

-- The pass: the roots first, then everything that the copies refer to.
private theorem ends_scavengePass (hs : h.Sound { old := os }) :
    Ends (do
      let roots ← h.roots.markM (h.scavengeOrigin os).pass.evacuate
      (h.scavengeOrigin os).pass.scanFrom 0
      return roots) { memory := h.memory, target := h.semispace.reserve }
      (fun r s ↦ ∃ cs, (h.scavengeOrigin os).Over cs s.memory s.target ∧
        s.tally = ⟨cs.length, s.target.cursor⟩ ∧
        r.toList = h.roots.toList.map (fun a ↦ cs.current (h.memory.resolve a)) ∧
        (∀ a ∈ h.roots.toList,
          h.semispace.active.contains (cs.current (h.memory.resolve a)) = false) ∧
        (h.scavengeOrigin os).Meets [] (h.roots.toList.map h.memory.resolve ++
          cs.flatMap fun c ↦ (h.scavengeOrigin os).found c.1) cs)
      (h.scavengeOrigin os).Stuck := by
  have ho := hs.scavengeOrigin
  have hzero : h.semispace.reserve.cursor = 0 := hs.reserve
  -- While the roots are marked, just the objects of the roots before have been met.
  refine (Origin.ends_markM (o := h.scavengeOrigin os)
    (fun done cs s ↦ (h.scavengeOrigin os).Holds cs s.memory s.target ∧
      (h.scavengeOrigin os).Advance []
        { memory := h.memory, target := h.semispace.reserve } cs s ∧
      (h.scavengeOrigin os).Meets [] (done.map h.memory.resolve) cs) ho
    (fun _ _ _ hh ↦ ⟨_, hh.1.plan⟩) ⟨ho.holds, .refl _ _ _, .refl _ _⟩
      fun done cs s a ha ⟨hh, hadv, hm⟩ ↦ ?_).bind fun r s ⟨cs, ⟨hh, hadv, hm⟩, hr, hn⟩ ↦ ?_
  · obtain ⟨hob, hl, d, f, hf, he, -⟩ := (hs.roots a ha).denotes
    have hf : (h.scavengeOrigin os).Object d f := object_scavengeOrigin.mpr hf
    have hob : IsObject (h.scavengeOrigin os).objects a := by
      rw [objects_scavengeOrigin]
      exact hob
    rw [← he] at hl
    refine (Origin.ends_evacuate ho hh hf (.start ha hl) (hh.leads ho hf hob hl)).imp
      fun r s' ⟨cs', hh', hlat, hr, hn, hm'⟩ ↦
        ⟨cs', ⟨hh', hadv.trans hlat, ?_⟩, hlat.copies, ?_, hn⟩
    · rw [List.map_append, List.map_singleton, ← he]
      exact hm.trans hm'
    · rw [hr, he]
      rfl
  · have hscan := Origin.ends_scanFrom ho hh
    rw [show (h.scavengeOrigin os).target.cursor = 0 from hzero] at hscan
    refine hscan.bind fun _ s' ⟨cs', hh', hlat, hset, hm'⟩ ↦ ends_pure_iff.mpr ?_
    obtain ⟨ds, hds⟩ := hlat.copies
    subst hds
    -- The scan makes more copies, but what a root refers to was moved before.
    have hcur : ∀ b ∈ h.roots.toList, Copies.current (cs ++ ds) (h.memory.resolve b) =
        cs.current (h.memory.resolve b) := fun b hb ↦ hh'.plan.current_append ho (hn b hb)
    refine ⟨_, ⟨hh', hset, by simp [Heap.scavengeOrigin]⟩, ?_, ?_, fun b hb ↦ ?_, hm.trans hm'⟩
    · have hall := hadv.trans hlat
      have hobj := hall.objects
      have hwords := hall.words
      simp only [hzero, List.length_nil] at hobj hwords
      cases hcount : s'.tally
      simp only [hcount, Tally.mk.injEq] at hobj hwords ⊢
      omega
    · rw [hr]
      exact (List.map_congr_left hcur).symm
    · rw [hcur b hb]
      exact hn b hb

/-- A scavenge copies what the roots reach, and swaps the halves. It gives the number of the copies
and their words. -/
theorem ends_scavenge {bad : Fault → Heap → Prop} (hs : h.Sound { old := os }) :
    Ends scavenge h (fun tally h' ↦ ∃ cs m, Scavenged h os cs m h' ∧
      h'.statistics = h.statistics ∧ tally = ⟨cs.length, h'.semispace.active.cursor⟩) bad := by
  have hpass := ends_scavengePass hs
  rw [scavenge, ends_ask_bind, ends_ask_bind]
  refine Ends.bind (q := fun r h' ↦ ∃ cs,
    (h.scavengeOrigin os).Over cs h'.memory h'.semispace.reserve ∧
    r.2 = ⟨cs.length, h'.semispace.reserve.cursor⟩ ∧
    r.1.toList = h.roots.toList.map (fun a ↦ cs.current (h.memory.resolve a)) ∧
    (∀ a ∈ h.roots.toList,
      h.semispace.active.contains (cs.current (h.memory.resolve a)) = false) ∧
    (h.scavengeOrigin os).Meets [] (h.roots.toList.map h.memory.resolve ++
      cs.flatMap fun c ↦ (h.scavengeOrigin os).found c.1) cs ∧
    h' = { h with
      memory := h'.memory
      semispace.reserve := h'.semispace.reserve }) ?_ ?_
  · unfold Ends at hpass ⊢
    simp only [runPass]
    split at hpass
    · next r s he =>
      have he' := he
      simp only [Heap.scavengeOrigin] at he'
      rw [he']
      obtain ⟨cs, hov, ht, hr, hn, hm⟩ := hpass
      exact ⟨cs, hov, ht, hr, hn, hm, rfl⟩
    · exact (hs.not_stuck_scavengeOrigin hpass).elim
  · rintro ⟨r, tally⟩ h' ⟨cs, hov, htally, hr, hn, hm, he⟩
    have ht : h'.table = h.table := by rw [he]
    have hset : h'.settings = h.settings := by rw [he]
    have hst : h'.statistics = h.statistics := by rw [he]
    have hnu : h'.nursery = h.nursery := by rw [he]
    have hac : h'.semispace.active = h.semispace.active := by rw [he]
    refine ⟨cs, h'.memory, ⟨hov, ?_, ht, hset, hnu, ?_, hr, hn, hm⟩, hst, htally⟩
    · simp only [hac]
    · simp only [hac]

section Scavenged

variable (hs : h.Sound { old := os }) (hp : Scavenged h os cs m h')
include hp

/-- Outside the old half, a scavenge leaves the memory as its pass did. -/
theorem Scavenged.swept : (h.scavengeOrigin os).Swept m h'.memory := by
  rw [hp.memory]
  exact (h.scavengeOrigin os).swept_clear m

include hs

/-- A scavenge leads from the heap at the origin of its pass to the heap after it. -/
theorem Scavenged.transfer : (h.scavengeOrigin os).Transfer cs h'.memory h h' where
  table := rfl
  compact := rfl
  memory := rfl
  table' := hp.table
  settings' := hp.settings
  memory' := rfl
  roots' := hp.roots
  valid := fun a ha ↦ by
    rw [objects_scavengeOrigin]
    exact hs.roots a ha
  clean := hp.clean

/-- The graph that the roots reach is as it was. -/
theorem Scavenged.sameGraph : SameGraph cs.current h h' :=
  hp.pass.sameGraph hs.scavengeOrigin hp.swept (hp.transfer hs)

/-- The roots do not refer to indirections. -/
theorem Scavenged.direct : ∀ a ∈ h'.roots.toList, h'.memory.hop? a = none := by
  intro a ha
  obtain ⟨t, g, hg, -, rfl⟩ := hp.pass.direct_root hs.scavengeOrigin hp.swept (hp.transfer hs) ha
  exact hg.hop?

/-- After a scavenge the regions lie apart as before. -/
theorem Scavenged.spaced : h'.Spaced := by
  have hbefore : h.regions.Perm
      [h.semispace.active, h.semispace.reserve, h.nursery.region] :=
    (List.perm_append_singleton _ _).symm
  have hsep := hp.pass.separate hs.scavengeOrigin hs.filled_scavengeOrigin (hs.separate hbefore)
  have hregions : [h.semispace.active.reset, h'.semispace.active, h.nursery.region].Perm
      h'.regions := by
    rw [regions, hp.nursery, hp.reserve]
    exact List.reverse_perm [h.nursery.region, h'.semispace.active, h.semispace.active.reset]
  have hnext := hsep.perm hregions
  have hcap : h'.semispace.active.capacity = h.semispace.reserve.capacity :=
    hp.pass.holds.capacity
  constructor
  · exact hnext.apart
  · rw [hp.memory]
    exact hnext.mapped
  · rw [hp.memory]
    exact hnext.vacant
  · rw [hp.reserve]
    rfl
  · rw [hp.reserve, hcap, hs.capacity]
    rfl

/-- The heap is sound after a scavenge, if nothing was remembered. -/
theorem Scavenged.sound (hrem : h.nursery.remembered = []) :
    h'.Sound { old := (h.scavengeOrigin os).arrived cs } := by
  have hcur : h.nursery.region.cursor = 0 := by
    have : h.nursery.region.start = h.nursery.region.start + h.nursery.region.cursor := hs.young
    omega
  refine (hp.spaced hs).sound (by rw [hp.nursery, hcur]) (by rw [hp.nursery, hrem])
    (by rw [hp.nursery, hs.epoch]) (hs.filled_scavengeOrigin.tiles_arrived hp.pass.holds) ?_
      fun a ha ↦ hp.pass.valid_root hs.scavengeOrigin hp.swept (hp.transfer hs) ha
  rw [hp.table, hp.settings]
  exact hp.pass.wellFormed hs.scavengeOrigin hp.swept

end Scavenged

end Tenure.Heap
