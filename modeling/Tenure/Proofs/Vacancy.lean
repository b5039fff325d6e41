import Tenure.Proofs.Invariants

/-!
# After an epoch

An epoch empties the nursery and reuses its words, so nothing may refer to it any more. That holds
of everything in the active half, garbage included: the end of an epoch does not tell the two apart.
Main statement: `Reaches.epoch_vacates`.
-/

namespace Tenure

namespace Heap

/-- The nursery is empty, and nothing in the heap refers to it. -/
structure Vacated (h : Heap) (l : Census) : Prop where
  cursor : h.nursery.region.cursor = 0
  remembered : h.nursery.remembered = []
  blank : ∀ i < h.nursery.region.capacity, h.memory.read (h.nursery.region.start + i) = 0
  /-- The census lists all that there is in the active half. -/
  tiles : Tiles l.old h.semispace.active.start
    (h.semispace.active.start + h.semispace.active.cursor)
  roots : ∀ a ∈ h.roots.toList, IsObject l.old a ∧ h.IsDirect a ∧
    (h.memory.header a).tagBits ≠ blockTag ∧ h.semispace.active.contains a = true
  slots : ∀ s ∈ l.old, h.IsDirect s.start → ∃ slots,
    h.memory.slots h.table s.start = .ok slots ∧
    ∀ p ∈ slots.list h.memory, ∀ a, Word.toRef? (h.memory.read p) = some a →
      h.nursery.region.contains a = false
  husks : ∀ s ∈ l.old, ∀ a, h.memory.hop? s.start = some a → h.nursery.region.contains a = false

variable {h h' : Heap} {l l' : Census} {os : List Span} {a : Nat}

/-- Objects of the active half lie outside the nursery. -/
theorem Sound.not_contains_of_isObject (hs : h.Sound { old := os }) (ha : IsObject os a) :
    h.nursery.region.contains a = false := by
  obtain ⟨s, hm, rfl⟩ := ha
  exact hs.not_contains_old hm (hs.wellFormed.nonempty s hm)

/-- A collection leaves nothing that refers to the nursery. -/
theorem Collected.vacated (hc : Collected h l h' l') : h'.Vacated l' := by
  have hs := hc.sound_old
  have hw := hs.wellFormed
  have hcur : h'.nursery.region.cursor = 0 := by
    rw [hc.nursery]
    rfl
  refine ⟨hcur, hc.remembered, fun i hi ↦ ?_, hs.old, fun a ha ↦ ?_, fun s hm hd ↦ ?_,
    fun s hm a ha ↦ ?_⟩
  · exact hs.vacant _ (by simp [regions]) i (by omega) hi
  · obtain ⟨hob, hl, t, g, hg, he, hb⟩ := (hs.roots a ha).denotes
    rw [Memory.resolve_of_hop?_eq_none (hc.direct a ha)] at he
    subst he
    refine ⟨hob, Memory.isIndirection_of_form? hg.form?, ?_, hs.contains_old (i := 0) hg.mem ?_⟩
    · rwa [Memory.tagBits_of_form? hg.form?]
    · exact hw.nonempty t hg.mem
  · obtain ⟨f, hf⟩ := hs.object_of_direct hm hd
    refine ⟨_, Memory.slots_of_form? hf.form?, fun p hp a ha ↦ ?_⟩
    obtain ⟨part, hpart, rfl⟩ := hw.mem_slots hf hp
    exact hs.not_contains_of_isObject (hw.isObject_of_slot hf hpart ha)
  · exact hs.not_contains_of_isObject (hw.valid_of_hop? (.of_mem hm) ha).denotes.1

end Heap

namespace Mutator

variable {settings : Settings} {table : TypeTable} {s : Session} {l : Census}

/-- In every session that a program can reach, an epoch succeeds and leaves nothing that refers to
the nursery, under any root stack that the program can build. -/
theorem Reaches.epoch_vacates (hr : Reaches settings table s l) (h : Heap)
    (hre : s.heap.Rerooted l h) :
    ∃ h', Heap.promoteNursery h = .ok () h' ∧ h'.Vacated (l.next h h') := by
  have hm := (Heap.Moves.refl hr.sound.heap).rerooted hre
  obtain ⟨h', l', he, hc⟩ := hm.sound.exists_promoted (hm.headroom hr.headroom)
  refine ⟨h', he, ?_⟩
  rw [hc.follows.next_eq hm.sound hc.sound]
  exact hc.vacated

/-- A run after which the remembered set names an object and an indirection. -/
theorem vacated_sample : ∃ s l, Reaches Sample.smallSettings Sample.nodeTable s l ∧
    s.heap.nursery.remembered.length = 2 ∧ s.heap.nursery.region.cursor = 8 ∧
    ∃ h', Heap.promoteNursery s.heap = .ok () h' ∧ h'.Vacated (l.next s.heap h') := by
  obtain ⟨s, l, hs, hr⟩ := Sample.reaches
  have hc : (Sample.session Sample.smallSettings).map (fun s ↦
      (s.heap.nursery.remembered.length, s.heap.nursery.region.cursor)) = some (2, 8) := by
    decide +kernel
  rw [hs, Option.map_some, Option.some.injEq, Prod.mk.injEq] at hc
  exact ⟨s, l, hr, hc.1, hc.2, hr.epoch_vacates _ (.refl hr.sound.heap)⟩

end Mutator

end Tenure
