import Tenure.Proofs.Collection
import Tenure.Proofs.Image
import Tenure.Proofs.Session

/-!
# Major collections leave a canonical image

What a major collection leaves is settled by the graph that the roots reach. It does not matter in
what order the objects were allocated, which of them were old, what else there was, and in what
order the remembered set is gone through. Main statement: `Reaches.major_canonical`, major
collections of congruent heaps leave one image, and another one changes nothing about it.
-/

namespace Tenure

namespace Heap

/-- The remembered set the other way around. -/
def reversed (h : Heap) : Heap :=
  { h with nursery.remembered := h.nursery.remembered.reverse }

/-- Another major collection succeeds, promotes nothing and leaves the image as it is. -/
def Settled (h : Heap) : Prop :=
  ∃ h', majorCollection h = .ok () h' ∧
    (∃ h₁, epoch h = .ok { objects := 0, words := 0 } h₁) ∧
    h'.statistics.objectsPromoted = h.statistics.objectsPromoted ∧
    h'.statistics.bytesPromoted = h.statistics.bytesPromoted ∧
    h'.image = h.image ∧ h'.semispace.active.usedBytes = h.semispace.active.usedBytes

/-- A major collection of `h` has left `h'`. -/
structure Cycled (h : Heap) (l : Census) (h' : Heap) : Prop where
  collected : ∃ l', Collected h l h' l'
  arranged : ∃ ts, h'.Arranged ts
  cursor : h'.semispace.active.cursor = h.liveWords
  headroom : h'.Headroom
  promoted : ∃ tally h₁, epoch h = .ok tally h₁ ∧ h.Completed l tally h₁ ∧
    h'.statistics.objectsPromoted = h.statistics.objectsPromoted + tally.objects ∧
    h'.statistics.bytesPromoted = h.statistics.bytesPromoted + tally.bytes

variable {h h' h₁ h₂ h₁' h₂' : Heap} {l l' l₁ l₂ : Census} {os : List Span} {tally : Tally}
  {φ : Nat → Nat}

/-! ### The order of the remembered set -/

private theorem reordered_reversed (h : Heap) : h.Reordered h.reversed := ⟨rfl, List.reverse_perm _⟩

/-- Another order of the remembered set changes nothing in the graph. -/
theorem Reordered.sameGraph (ho : h.Reordered h') : SameGraph id h h' := by
  rw [ho.heap]
  exact { SameGraph.refl h with }

/-! ### What a major collection leaves -/

/-- The counters tell what the epoch has promoted. -/
theorem ends_promoteNursery_counted (hs : h.Sound l) :
    Ends promoteNursery h
      (fun _ h' ↦ ∃ tally h₁, epoch h = .ok tally h₁ ∧ h.Completed l tally h₁ ∧
        h'.statistics.objectsPromoted = h.statistics.objectsPromoted + tally.objects ∧
        h'.statistics.bytesPromoted = h.statistics.bytesPromoted + tally.bytes)
      (fun _ _ ↦ True) := by
  rw [promoteNursery_eq]
  have hepoch : Ends epoch h (fun tally h₁ ↦ epoch h = .ok tally h₁ ∧ h.Completed l tally h₁)
      (fun _ _ ↦ True) := by
    cases he : epoch h with
    | ok tally h₁ => exact (ends_iff_of_eq_ok he).mpr ⟨rfl, (ends_epoch hs).of_eq_ok he⟩
    | error e h₁ => simp only [Ends, he]
  apply hepoch.bind
  rintro tally h₁ ⟨he, hc⟩
  obtain ⟨-, -, -, -, -, hstat⟩ := id hc
  rw [count, ends_change_bind]
  apply ends_report.imp
  rintro _ h₂ ⟨-, hstat'⟩
  refine ⟨tally, h₁, he, hc, ?_⟩
  rw [hstat']
  simp only [Statistics.addMinor, hstat, and_self]

/-- A scavenge for room leaves the objects in the order in which a search meets them, and promotes
nothing. -/
theorem ends_scavengeForRoom_arranged {bad : Fault → Heap → Prop} (hc : Collected h l h' l') :
    Ends scavengeForRoom h'
      (fun _ h'' ↦ (∃ ts, h''.Arranged ts) ∧
        h''.statistics.objectsPromoted = h'.statistics.objectsPromoted ∧
        h''.statistics.bytesPromoted = h'.statistics.bytesPromoted) bad := by
  rw [scavengeForRoom]
  apply (ends_scavenge hc.sound_old).bind
  rintro tally h₁ ⟨cs, m, hp, hst, -⟩
  rw [count, ends_change_bind]
  apply ends_report.imp
  rintro _ h₂ ⟨hsame, hstat⟩
  refine ⟨⟨_, (hp.of_sameStore hsame.of_count).arranged hc.sound_old⟩, ?_⟩
  rw [hstat]
  simp only [Statistics.addScavenge, hst, and_self]

private theorem ends_majorCollection_cycled (hs : h.Sound l) :
    Ends majorCollection h (fun _ h' ↦ h.Cycled l h') (fun _ _ ↦ True) := by
  rw [majorCollection]
  apply (((ends_promoteNursery hs).and (ends_promoteNursery_counted hs)).mono (fun _ _ hp ↦ hp)
    fun _ _ _ ↦ trivial).bind
  rintro _ h₁ ⟨⟨⟨l₁, hc₁⟩, -⟩, tally, h₀, he, hcomp, hobj, hbytes⟩
  have hscavenge : Ends scavengeForRoom h₁ _ (fun _ _ ↦ True ∧ True) :=
    (ends_scavengeForRoom hc₁).and (ends_scavengeForRoom_arranged hc₁)
  apply (hscavenge.mono (fun _ _ hp ↦ hp) fun _ _ _ ↦ trivial).bind
  rintro _ h₂ ⟨⟨hc₂, -, hcur⟩, harr, hobj₂, hbytes₂⟩
  refine ends_requireHeadroom.mono ?_ fun _ _ _ ↦ trivial
  rintro _ _ ⟨rfl, hroom⟩
  exact ⟨hc₂, harr, hcur, hroom, tally, h₀, he, hcomp, hobj₂.trans hobj, hbytes₂.trans hbytes⟩

/-- Major collections of congruent heaps leave one image. -/
theorem Cycled.image_eq (hc₁ : h₁.Cycled l₁ h₁') (hc₂ : h₂.Cycled l₂ h₂')
    (hc : Congruent φ h₁ h₂) : h₂'.image = h₁'.image := by
  obtain ⟨_, -, -, -, -, -, -, -, -, ψ₁, hg₁⟩ := hc₁.collected
  obtain ⟨_, -, -, -, -, -, -, -, -, ψ₂, hg₂⟩ := hc₂.collected
  obtain ⟨ts₁, hA₁⟩ := hc₁.arranged
  obtain ⟨ts₂, hA₂⟩ := hc₂.arranged
  obtain ⟨χ, hχ⟩ := hg₁.congruent.between (hc.trans hg₂.congruent)
  exact hA₁.image_eq hA₂ hχ

/-- With an empty nursery an epoch promotes nothing. -/
theorem Completed.tally_eq (hc : Completed h { old := os } tally h') :
    tally = { objects := 0, words := 0 } := by
  obtain ⟨cs, m, hp, hobj, hwords, -⟩ := hc
  have hplan := hp.pass.holds.plan
  have hnil : cs = [] := by
    refine List.eq_nil_iff_forall_not_mem.mpr fun c hmem ↦ ?_
    exact List.not_mem_nil (hplan.object c hmem).1
  subst hnil
  have htiles : h.semispace.active.start + h.semispace.active.cursor =
    h'.semispace.active.start + h'.semispace.active.cursor := hplan.tiles
  have hstart : h'.semispace.active.start = h.semispace.active.start := hp.pass.holds.start
  rw [Tally.mk.injEq]
  exact ⟨hobj, by omega⟩

/-- The words in use are those that the objects need which the roots reach. -/
theorem Cycled.cursor_eq (hc : h.Cycled l h') :
    h'.semispace.active.cursor = h'.liveWords := by
  obtain ⟨_, hcol⟩ := hc.collected
  obtain ⟨_, hg⟩ := hcol.graph
  rw [hg.liveWords_eq, hc.cursor]

/-- After a major collection there is room for what another one needs. -/
theorem Cycled.not_spent {e : Fault} (hc : h.Cycled l h') : ¬ h'.Spent l' e h₂ := by
  rintro ⟨⟨_, hcol⟩, hcur, hf⟩
  have hn := (requireHeadroom_eq_error_iff.mp hf).1
  have hroom := hc.headroom
  have hcursor := hc.cursor_eq
  rw [Headroom, Region.capacityBytes, Region.freeBytes, Region.free] at hn hroom
  rw [hcol.nursery, hcol.capacity, hcur, ← hcursor] at hn
  exact hn hroom

private theorem Cycled.settled (hc : h.Cycled l h') : h'.Settled := by
  obtain ⟨l', hcol⟩ := hc.collected
  obtain ⟨φ, hg⟩ := hcol.graph
  have hs' := hcol.sound_old
  obtain ⟨_, h'', he, -, hcyc⟩ :=
    (((ends_majorCollection hs').and (ends_majorCollection_cycled hs')).mono (fun _ _ h ↦ h)
      fun _ _ ⟨⟨_, hspent⟩, _⟩ ↦ hc.not_spent (hspent hc.headroom)).exists_eq_ok
  obtain ⟨tally, h₁, hepoch, hcomp, hobj, hbytes⟩ := hcyc.promoted
  obtain rfl := hcomp.tally_eq
  refine ⟨h'', he, ⟨h₁, hepoch⟩, hobj, ?_, hc.image_eq hcyc hg.congruent, ?_⟩
  · rw [hbytes, Tally.bytes, Nat.zero_mul, Nat.add_zero]
  · rw [Region.usedBytes, Region.usedBytes, hcyc.cursor, hc.cursor_eq]

end Heap

namespace Mutator

variable {settings₁ settings₂ : Settings} {table : TypeTable} {s₁ s₂ : Session} {l₁ l₂ : Census}
  {h₁ h₂ h₁' h₂' : Heap} {φ : Nat → Nat}

open Heap in
/-- If two programs with the same types have built congruent heaps, and major collections of both
succeed, these leave one image, in whatever order they go through the remembered sets, and another
major collection changes nothing about it. -/
theorem Reaches.major_canonical (hr₁ : Reaches settings₁ table s₁ l₁)
    (hr₂ : Reaches settings₂ table s₂ l₂) (hc : Congruent φ s₁.heap s₂.heap)
    (ho₁ : s₁.heap.Reordered h₁) (ho₂ : s₂.heap.Reordered h₂)
    (he₁ : majorCollection h₁ = .ok () h₁') (he₂ : majorCollection h₂ = .ok () h₂') :
    h₂'.image = h₁'.image ∧ h₁'.Settled ∧ h₂'.Settled := by
  have hc₁ := (ends_majorCollection_cycled (hr₁.sound.heap.reordered ho₁)).of_eq_ok he₁
  have hc₂ := (ends_majorCollection_cycled (hr₂.sound.heap.reordered ho₂)).of_eq_ok he₂
  -- The order of a remembered set is not part of the graph, so the heaps are congruent still.
  obtain ⟨χ, hχ⟩ := ho₁.sameGraph.congruent.between (hc.trans ho₂.sameGraph.congruent)
  exact ⟨hc₁.image_eq hc₂ hχ, hc₁.settled, hc₂.settled⟩

open Heap in
/-- A run, and the same run with a minor collection behind it, so that what was young and had to be
remembered in the one is old in the other. -/
theorem canonical_sample : ∃ s₁ l₁ s₂ l₂ φ h₁ h₁' h₂',
    Reaches Sample.smallSettings Sample.nodeTable s₁ l₁ ∧
    Reaches Sample.smallSettings Sample.nodeTable s₂ l₂ ∧
    Congruent φ s₁.heap s₂.heap ∧ s₁.heap.Reordered h₁ ∧
    h₁.nursery.remembered ≠ s₁.heap.nursery.remembered ∧
    s₁.heap.nursery.region.cursor = 8 ∧ s₂.heap.nursery.region.cursor = 0 ∧
    majorCollection h₁ = .ok () h₁' ∧ majorCollection s₂.heap = .ok () h₂' ∧
    h₁'.image.words.length = 11 ∧ h₂'.image = h₁'.image ∧ h₁'.Settled ∧ h₂'.Settled := by
  obtain ⟨s, l, hs, hr⟩ := Sample.reaches
  have hc : (Sample.session Sample.smallSettings).map (fun s ↦
      (decide (s.heap.reversed.nursery.remembered = s.heap.nursery.remembered),
        s.heap.nursery.region.cursor,
        after? majorCollection (·.image.words.length) s.heap.reversed,
        after? minorCollection (fun h ↦ (h.nursery.region.cursor,
          after? majorCollection (·.image.words.length) h)) s.heap)) =
      some (false, 8, some 11, some (0, some 11)) := by
    decide +kernel
  rw [hs, Option.map_some, Option.some.injEq, Prod.mk.injEq, Prod.mk.injEq, Prod.mk.injEq] at hc
  obtain ⟨hne, hyoung, hmajor, hminor⟩ := hc
  obtain ⟨h₁', he₁, hlength⟩ := exists_of_after? hmajor
  obtain ⟨h₂, he, hthen⟩ := exists_of_after? hminor
  obtain ⟨hempty, hmajor₂⟩ := Prod.mk.inj hthen
  obtain ⟨h₂', he₂, -⟩ := exists_of_after? hmajor₂
  obtain ⟨⟨l₂, hcol⟩, -⟩ := (ends_collect hr.sound.heap).of_eq_ok he
  obtain ⟨φ, hg⟩ := hcol.graph
  have hrun : run .minorCollection none s = .ok .done { s with heap := h₂ } := by
    simp only [run, exec, onHeap, bind, EStateM.bind, he]
    rfl
  exact ⟨s, l, _, _, φ, s.heap.reversed, h₁', h₂', hr, hr.reply hrun, hg.congruent,
    reordered_reversed s.heap, of_decide_eq_false hne, hyoung, hempty, he₁, he₂, hlength,
    hr.major_canonical (hr.reply hrun) hg.congruent (reordered_reversed _) (.refl _) he₁ he₂⟩

end Mutator

end Tenure
