import Tenure.Proofs.Invariants
import Tenure.Proofs.Survivors

/-!
# Packed heaps

After a scavenge the active half holds what the roots reach and nothing else: no garbage, no
indirection and no object twice. Main statement: `Sound.scavenge_keeps_live`, a scavenge succeeds
and packs the heap.
-/

namespace Tenure.Heap

/-- The block at `b` holds the tail of the object at `d`. -/
def BlockOf (h : Heap) (d b : Nat) : Prop :=
  (h.memory.header d).tailBits = .outOfLine ∧ h.blockLink d = some (Word.ofAddr b)

/-- The active half holds what the roots reach and nothing else, in the spans `ts`. -/
structure Packed (h : Heap) (ts : List Span) : Prop where
  /-- The objects follow one another without a gap. -/
  tiles : Tiles ts h.semispace.active.start
    (h.semispace.active.start + h.semispace.active.cursor)
  direct : ∀ t ∈ ts, h.IsDirect t.start
  extent : ∀ t ∈ ts, h.memory.extent h.table h.settings.padding t.start = .ok t.words
  /-- What is no block is a node of the graph that the roots reach, and each node is here. -/
  live : ∀ d, h.Live d ↔ ∃ t ∈ ts, t.start = d ∧ (h.memory.header d).tagBits ≠ blockTag
  /-- Each block holds the tail of one node. -/
  block : ∀ t ∈ ts, (h.memory.header t.start).tagBits = blockTag →
    ∃! d, h.Live d ∧ h.BlockOf d t.start
  /-- Each node has its block here, if its tail is in a block. -/
  tail : ∀ d, h.Live d → (h.memory.header d).tailBits = .outOfLine →
    ∃ t ∈ ts, (h.memory.header t.start).tagBits = blockTag ∧ h.BlockOf d t.start
  roots : ∀ a ∈ h.roots.toList, IsObject ts a
  slots : ∀ t ∈ ts, ∃ slots, h.memory.slots h.table t.start = .ok slots ∧
    ∀ p ∈ slots.list h.memory, ∀ a, Word.toRef? (h.memory.read p) = some a → IsObject ts a

variable {h : Heap} {os ts : List Span} {s : Span} {f : Form} {d : Nat}

/-- The link of an object with its tail out of line leads to its block. -/
theorem blockOf_of_form? (hf : h.memory.form? h.table s.start = some f) (ht : f.tail = .outOfLine)
    (hl : h.memory.read (f.cell h.memory s.start .link) = Word.ofAddr d) :
    h.BlockOf s.start d := by
  refine ⟨(Memory.tailBits_of_form? hf).trans ht, ?_⟩
  rw [blockLink, Memory.tagBits_of_form? hf, (Memory.form?_eq_some_iff.mp hf).2, Option.map_some,
    ← hl]
  rfl

/-- A heap that keeps only what is reached is packed. -/
theorem Kept.packed (hk : h.Kept ts) : h.Packed ts := by
  have hw := hk.wellFormed
  refine ⟨hk.tiles, fun t ht ↦ ?_, fun t ht ↦ ?_, fun d ↦ ?_, fun t ht hb ↦ ?_, fun d hd ht ↦ ?_,
    hk.roots, fun t ht ↦ ?_⟩
  · obtain ⟨g, hg⟩ := hk.direct t ht
    exact Memory.isIndirection_of_form? hg.form?
  · obtain ⟨g, hg⟩ := hk.direct t ht
    rw [Memory.extent_of_form? _ hg.form?, hw.extent t g hg]
  · rw [hk.live]
    constructor
    · rintro ⟨t, g, hg, hb, rfl⟩
      exact ⟨t, hg.mem, rfl, by rwa [Memory.tagBits_of_form? hg.form?]⟩
    · rintro ⟨t, ht, rfl, hb⟩
      obtain ⟨g, hg⟩ := hk.direct t ht
      rw [Memory.tagBits_of_form? hg.form?] at hb
      exact ⟨t, g, hg, hb, rfl⟩
  · obtain ⟨g, hg⟩ := hk.direct t ht
    rw [Memory.tagBits_of_form? hg.form?] at hb
    obtain ⟨s, f, hf, hfb, hft, hl⟩ := hk.block t g hg hb
    refine ⟨s.start, ⟨(hk.live _).mpr ⟨s, f, hf, hfb, rfl⟩,
      blockOf_of_form? hf.form? hft hl⟩, ?_⟩
    rintro e ⟨he, hte, hle⟩
    obtain ⟨s', f', hf', -, rfl⟩ := (hk.live e).mp he
    rw [Memory.tailBits_of_form? hf'.form?] at hte
    rw [blockLink, Memory.tagBits_of_form? hf'.form?, (Memory.form?_eq_some_iff.mp hf'.form?).2,
      Option.map_some, Option.some.injEq] at hle
    exact congrArg Span.start (hw.owner s' f' s f hf' hf hte hft (hle.trans hl.symm))
  · obtain ⟨s, f, hf, -, rfl⟩ := (hk.live d).mp hd
    rw [Memory.tailBits_of_form? hf.form?] at ht
    obtain ⟨t, g, hg, hl, hb, -⟩ := hw.block s f hf ht
    exact ⟨t, hg.mem, by rw [Memory.tagBits_of_form? hg.form?]; exact hb,
      blockOf_of_form? hf.form? ht hl⟩
  · obtain ⟨g, hg⟩ := hk.direct t ht
    refine ⟨_, Memory.slots_of_form? hg.form?, fun p hp a ha ↦ ?_⟩
    obtain ⟨part, hpart, rfl⟩ := hw.mem_slots hg hp
    exact hw.isObject_of_slot hg hpart ha

/-- A scavenge of `h` gives `tally` and leaves `h'`, where the graph goes by the new names `φ` and
is all that there is, in the spans `ts`. -/
structure KeepsLive (φ : Nat → Nat) (ts : List Span) (h : Heap) (tally : Tally) (h' : Heap) :
    Prop where
  graph : SameGraph φ h h'
  packed : h'.Packed ts
  /-- The tail of a node stays in a block unless tails are to be moved inline. -/
  tail : ∀ d, h.Live d → ((h'.memory.header (φ d)).tailBits = .outOfLine ↔
    (h.memory.header d).tailBits = .outOfLine ∧ h.settings.compactTails = false)
  active : h'.semispace.active.start = h.semispace.reserve.start ∧
    h'.semispace.active.capacity = h.semispace.reserve.capacity
  reserve : h'.semispace.reserve.start = h.semispace.active.start ∧
    h'.semispace.reserve.capacity = h.semispace.active.capacity ∧
    h'.semispace.reserve.cursor = 0
  /-- The half that was left behind holds nothing. -/
  blank : ∀ i < h'.semispace.reserve.capacity, h'.memory.read (h'.semispace.reserve.start + i) = 0
  objects : tally.objects = ts.length
  bytes : tally.bytes = 8 * h'.semispace.active.cursor

/-- A scavenge succeeds and keeps just what the roots reach. -/
theorem Sound.scavenge_keeps_live (hs : h.Sound { old := os }) :
    ∃ tally h' ts φ, scavenge h = .ok tally h' ∧ KeepsLive φ ts h tally h' := by
  obtain ⟨tally, h', he, cs, m, hp, -, rfl⟩ := (ends_scavenge hs).exists_eq_ok
  have hg := hp.sameGraph hs
  have hsp := hp.spaced hs
  refine ⟨_, h', _, _, he, hg, (hp.kept hs).packed, fun d hd ↦ ?_,
    ⟨hp.pass.holds.start, hp.pass.holds.capacity⟩, ?_, fun i hi ↦ ?_, ?_, Nat.mul_comm _ _⟩
  · exact hp.tailBits_eq_outOfLine_iff hs hd
  · rw [hp.reserve]
    exact ⟨rfl, rfl, rfl⟩
  · refine hsp.vacant _ (by simp [regions]) i ?_ hi
    rw [hsp.reserve]
    exact Nat.zero_le i
  · exact (List.length_map _).symm

open Mutator in
/-- An epoch after which an indirection and a block are in use that a scavenge drops. -/
theorem scavenge_sample : ∃ h os, h.Sound { old := os } ∧ h.semispace.active.cursor = 15 ∧
    ∃ tally h' ts φ, scavenge h = .ok tally h' ∧ KeepsLive φ ts h tally h' := by
  obtain ⟨s, l, hs, hr⟩ := Sample.reaches
  have hc : (Sample.session Sample.smallSettings).map (fun s ↦
      after? promoteNursery (·.semispace.active.cursor) s.heap) = some (some 15) := by
    decide +kernel
  rw [hs, Option.map_some, Option.some.injEq] at hc
  obtain ⟨h, he, hcur⟩ := exists_of_after? hc
  obtain ⟨⟨l', hcol⟩, -⟩ := (ends_promoteNursery hr.sound.heap).of_eq_ok he
  exact ⟨h, l'.old, hcol.sound_old, hcur, hcol.sound_old.scavenge_keeps_live⟩

end Tenure.Heap
