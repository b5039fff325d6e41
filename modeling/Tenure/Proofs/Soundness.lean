import Tenure.Heap.State
import Tenure.Proofs.WellFormed

/-!
# Sound heaps

The census of a heap lists the spans of the objects in each generation. A heap is sound for its
census if the spans tile what is in use, the memory is well-formed for them, all else is zero, and
the remembered set names every old object that refers to the nursery. Main statement:
`contains_iff`, the nursery contains just the young objects.
-/

namespace Tenure

/-- The spans of the objects in each generation, in the order of their addresses. -/
structure Census where
  young : List Span := []
  old : List Span := []
  deriving DecidableEq, Repr

/-- The spans of all objects. -/
def Census.objects (l : Census) : List Span := l.young ++ l.old

namespace Heap

/-- The regions, of which the reserve comes last. -/
def regions (h : Heap) : List Region := [h.nursery.region, h.semispace.active, h.semispace.reserve]

/-- `s` is the span of a direct object of form `f`. -/
def Object (h : Heap) (l : Census) (s : Span) (f : Form) : Prop :=
  h.memory.Direct h.table l.objects s f

/-- A reference to `a` denotes an object that a program can name. -/
def Valid (h : Heap) (l : Census) (a : Nat) : Prop := h.memory.Valid h.table l.objects a

/-- The remembered set names every old object that refers to the nursery by a slot, or stands for
something there, and it names old objects only. -/
structure Remembers (h : Heap) (l : Census) : Prop where
  old : ∀ a ∈ h.nursery.remembered, IsObject l.old a
  slots : ∀ s f, s ∈ l.old → h.Object l s f → ∀ part, f.IsSlot part → ∀ a,
    Word.toRef? (h.memory.read (f.cell h.memory s.start part)) = some a →
    h.nursery.region.contains a = true → s.start ∈ h.nursery.remembered
  husks : ∀ s ∈ l.old, ∀ a, h.memory.hop? s.start = some a →
    h.nursery.region.contains a = true → s.start ∈ h.nursery.remembered

/-- The regions lie apart, and what is not in use is zero. -/
structure Spaced (h : Heap) : Prop where
  apart : h.regions.Pairwise fun r r' ↦ ∀ a, r.contains a = true → r'.contains a = false
  mapped : ∀ r ∈ h.regions, ∀ i < r.capacity, h.memory.Mapped (r.start + i)
  vacant : ∀ r ∈ h.regions, ∀ i, r.cursor ≤ i → i < r.capacity → h.memory.read (r.start + i) = 0
  reserve : h.semispace.reserve.cursor = 0
  capacity : h.semispace.reserve.capacity = h.semispace.active.capacity

/-- What holds of a heap between two operations. -/
structure Sound (h : Heap) (l : Census) : Prop extends Spaced h where
  young : Tiles l.young h.nursery.region.start (h.nursery.region.start + h.nursery.region.cursor)
  old : Tiles l.old h.semispace.active.start
    (h.semispace.active.start + h.semispace.active.cursor)
  wellFormed : h.memory.WellFormed h.table h.settings.padding l.objects
  /-- A block lies in the region of its owner. -/
  links : ∀ s f, h.Object l s f → f.tail = .outOfLine → ∀ a,
    Word.toRef? (h.memory.read (f.cell h.memory s.start .link)) = some a →
    h.nursery.region.contains a = h.nursery.region.contains s.start
  roots : ∀ a ∈ h.roots.toList, h.Valid l a
  remembers : h.Remembers l
  epoch : h.nursery.epoch = none

/-- The active half has room for a whole nursery. -/
def Headroom (h : Heap) : Prop :=
  h.nursery.region.capacityBytes ≤ h.semispace.active.freeBytes

/-- The heaps differ in counters and events at most. -/
structure SameStore (h h' : Heap) : Prop where
  table : h'.table = h.table
  settings : h'.settings = h.settings
  memory : h'.memory = h.memory
  nursery : h'.nursery = h.nursery
  semispace : h'.semispace = h.semispace
  roots : h'.roots = h.roots

/-- The remembered set of `h'` is that of `h`, in any order. -/
structure Reordered (h h' : Heap) : Prop where
  heap : h' = { h with nursery.remembered := h'.nursery.remembered }
  remembered : h'.nursery.remembered.Perm h.nursery.remembered

variable {h h' : Heap} {l : Census} {s : Span} {f : Form} {a i : Nat}

/-- The counters are no part of the store. -/
theorem SameStore.of_count {st : Statistics} (he : SameStore { h with statistics := st } h') :
    SameStore h h' := ⟨he.table, he.settings, he.memory, he.nursery, he.semispace, he.roots⟩

/-- Counters and events play no part in soundness. -/
theorem Sound.of_sameStore (hs : h.Sound l) (he : SameStore h h') : h'.Sound l := by
  obtain ⟨ht, hp, hm, hn, hss, hr⟩ := he
  have hreg : h'.regions = h.regions := by simp only [regions, hn, hss]
  refine ⟨⟨hreg ▸ hs.apart, ?_, ?_, hss ▸ hs.reserve, hss ▸ hs.capacity⟩, hn ▸ hs.young,
    hss ▸ hs.old, ?_, ?_, ?_, ⟨hn ▸ hs.remembers.old, ?_, ?_⟩, hn ▸ hs.epoch⟩
  · rw [hreg, hm]
    exact hs.mapped
  · rw [hreg, hm]
    exact hs.vacant
  · rw [ht, hp, hm]
    exact hs.wellFormed
  · simp only [Object, ht, hm, hn]
    exact hs.links
  · simp only [Valid, ht, hm, hr]
    exact hs.roots
  · simp only [Object, ht, hm, hn]
    exact hs.remembers.slots
  · rw [hm, hn]
    exact hs.remembers.husks

/-- The order that a remembered set is in already is one of its orders. -/
theorem Reordered.refl (h : Heap) : h.Reordered h := ⟨rfl, .refl _⟩

/-- The order of the remembered set plays no part in soundness. -/
theorem Sound.reordered (hs : h.Sound l) (ho : h.Reordered h') : h'.Sound l := by
  obtain ⟨he, hp⟩ := ho
  rw [he]
  have hspaced := (⟨hs.apart, hs.mapped, hs.vacant, hs.reserve, hs.capacity⟩ :
    Spaced { h with nursery.remembered := h'.nursery.remembered })
  have hrem : Remembers { h with nursery.remembered := h'.nursery.remembered } l := by
    refine ⟨fun a ha ↦ ?_, fun s f ho hf part hslot a ha hc ↦ ?_, fun s ho a ha hc ↦ ?_⟩
    · exact hs.remembers.old a (hp.mem_iff.mp ha)
    · exact hp.mem_iff.mpr (hs.remembers.slots s f ho hf part hslot a ha hc)
    · exact hp.mem_iff.mpr (hs.remembers.husks s ho a ha hc)
  exact ⟨hspaced, hs.young, hs.old, hs.wellFormed, hs.links, hs.roots, hrem, hs.epoch⟩

/-- The order of the remembered set takes no room. -/
theorem Reordered.headroom (ho : h.Reordered h') (hroom : h.Headroom) : h'.Headroom := by
  rw [ho.heap]
  exact hroom

namespace Spaced

variable (hs : h.Spaced)
include hs

/-- The regions are separate, in any order. -/
theorem separate {rs : List Region} (hp : h.regions.Perm rs) : Region.Separate h.memory rs :=
  Region.Separate.perm ⟨hs.apart, hs.mapped, hs.vacant⟩ hp

/-- The nursery and the active half have no word in common. -/
theorem nursery_apart_active : h.nursery.region.Apart h.semispace.active :=
  (Region.pairwise_apart_iff.mp hs.apart).1

/-- The nursery and the reserve have no word in common. -/
theorem nursery_apart_reserve : h.nursery.region.Apart h.semispace.reserve :=
  (Region.pairwise_apart_iff.mp hs.apart).2.1

/-- The halves have no word in common. -/
theorem active_apart_reserve : h.semispace.active.Apart h.semispace.reserve :=
  (Region.pairwise_apart_iff.mp hs.apart).2.2

/-- The active half and the nursery have no word in common. -/
theorem active_apart_nursery : h.semispace.active.Apart h.nursery.region :=
  hs.nursery_apart_active.symm

end Spaced

namespace Sound

variable (hs : h.Sound l)
include hs

/-- The words of a young object lie in the nursery. -/
theorem contains_young (hm : s ∈ l.young) (hi : i < s.words) :
    h.nursery.region.contains (s.start + i) = true := by
  have ht := hs.young.mem hm
  have hc := h.nursery.region.cursor_le
  simp only [Span.stop] at ht
  exact Region.mem_iff.mpr ⟨by omega, by omega⟩

/-- The words of an old object lie in the active half. -/
theorem contains_old (hm : s ∈ l.old) (hi : i < s.words) :
    h.semispace.active.contains (s.start + i) = true := by
  have ht := hs.old.mem hm
  have hc := h.semispace.active.cursor_le
  simp only [Span.stop] at ht
  exact Region.mem_iff.mpr ⟨by omega, by omega⟩

/-- Old objects lie outside the nursery. -/
theorem not_contains_old (hm : s ∈ l.old) (hi : i < s.words) :
    h.nursery.region.contains (s.start + i) = false :=
  hs.active_apart_nursery _ (hs.contains_old hm hi)

/-- The nursery contains just the young objects. -/
theorem contains_iff (hm : s ∈ l.objects) :
    h.nursery.region.contains s.start = true ↔ s ∈ l.young := by
  have hw := hs.wellFormed.nonempty s hm
  constructor
  · intro hc
    rcases List.mem_append.mp hm with hy | ho
    · exact hy
    · have := hs.not_contains_old ho hw
      rw [Nat.add_zero, hc] at this
      cases this
  · exact fun hy ↦ hs.contains_young hy hw

/-- The objects that do not begin in the nursery are the old ones. -/
theorem not_contains_iff (hm : s ∈ l.objects) :
    h.nursery.region.contains s.start = false ↔ s ∈ l.old := by
  have hw := hs.wellFormed.nonempty s hm
  rw [← Bool.not_eq_true, hs.contains_iff hm]
  constructor
  · exact fun hn ↦ (List.mem_append.mp hm).resolve_left hn
  · intro ho hy
    have := hs.not_contains_old ho hw
    rw [Nat.add_zero, (hs.contains_iff hm).mpr hy] at this
    cases this

end Sound

/-- With an empty nursery nothing can refer to it, so no object has to be remembered. -/
theorem Spaced.sound {os : List Span} (hsp : h.Spaced) (hc : h.nursery.region.cursor = 0)
    (hr : h.nursery.remembered = []) (he : h.nursery.epoch = none)
    (ho : Tiles os h.semispace.active.start
      (h.semispace.active.start + h.semispace.active.cursor))
    (hw : h.memory.WellFormed h.table h.settings.padding os)
    (hroots : ∀ a ∈ h.roots.toList, h.memory.Valid h.table os a) : h.Sound { old := os } := by
  have hold : ∀ a, IsObject os a → h.nursery.region.contains a = false := by
    rintro a ⟨s, hs, rfl⟩
    have ht := ho.mem hs
    have hcur := h.semispace.active.cursor_le
    simp only [Span.stop] at ht
    exact hsp.active_apart_nursery _ (Region.mem_iff.mpr ⟨by omega, by omega⟩)
  refine ⟨hsp, ?_, ho, hw, fun s f hf ht a ha ↦ ?_, hroots, ⟨?_, ?_, ?_⟩, he⟩
  · rw [hc]
    rfl
  · rw [hold a (hw.isObject_of_slot hf (.inr ⟨rfl, ht⟩) ha), hold _ (.of_mem hf.mem)]
  · rw [hr]
    simp
  · intro s f _ hf part hp a ha hc
    rw [hold a (hw.isObject_of_slot hf hp ha)] at hc
    cases hc
  · intro s hs a ha hc
    obtain ⟨_, hoa, -⟩ := hw.valid_of_hop? (.of_mem hs) ha
    rw [hold a hoa] at hc
    cases hc

end Heap

end Tenure
