import Tenure.Proofs.Session

/-!
# What every reachable heap satisfies

The invariant of the proofs speaks of forms and parts. Here is what it means for headers, slots and
words. Main statements: `Reaches.heap_intact`, references lead to objects, which lie apart in the
used words of their generation; `Reaches.heap_tracked`, the remembered set names the old objects
that refer to the nursery.
-/

namespace Tenure

namespace Heap

/-- The header at `a` is direct. -/
def IsDirect (h : Heap) (a : Nat) : Prop := (h.memory.header a).isIndirection = false

/-- The word behind the fields of a direct object, which refers to its block if it has one. -/
def blockLink (h : Heap) (a : Nat) : Option Word :=
  (h.table.get? (h.memory.header a).tagBits).map fun type ↦ h.memory.read (a + 1 + type.fields)

/-- The objects that the census lists lie apart in use, and nothing but these is referred to. -/
structure Intact (h : Heap) (l : Census) : Prop where
  /-- Every entry of the root stack is the address of an object. -/
  roots : ∀ a ∈ h.roots.toList, IsObject l.objects a
  /-- So is every slot of a direct object that is not null. -/
  slots : ∀ s ∈ l.objects, h.IsDirect s.start → ∃ slots,
    h.memory.slots h.table s.start = .ok slots ∧
    ∀ p ∈ slots.list h.memory, ∀ a, Word.toRef? (h.memory.read p) = some a → IsObject l.objects a
  /-- So is the target of every indirection. -/
  husks : ∀ s ∈ l.objects, ∀ a, h.memory.hop? s.start = some a → IsObject l.objects a
  /-- The objects fill the words in use. -/
  tiles : Tiles l.young h.nursery.region.start (h.nursery.region.start + h.nursery.region.cursor) ∧
    Tiles l.old h.semispace.active.start (h.semispace.active.start + h.semispace.active.cursor)
  /-- Young objects lie in the used part of the nursery. -/
  young : ∀ s ∈ l.young, h.nursery.region.start ≤ s.start ∧
    s.stop ≤ h.nursery.region.start + h.nursery.region.cursor
  /-- Old objects lie in the used part of the active half. -/
  old : ∀ s ∈ l.old, h.semispace.active.start ≤ s.start ∧
    s.stop ≤ h.semispace.active.start + h.semispace.active.cursor
  /-- Objects have no word in the reserve half. -/
  reserve : ∀ s ∈ l.objects, ∀ i < s.words, h.semispace.reserve.contains (s.start + i) = false
  /-- Two objects have no word in common. -/
  apart : l.objects.Pairwise Span.Apart
  /-- A direct object takes the words that its header asks for. -/
  extent : ∀ s ∈ l.objects, h.IsDirect s.start →
    h.memory.extent h.table h.settings.padding s.start = .ok s.words
  /-- The tag of a direct object has a type. -/
  tags : ∀ s ∈ l.objects, h.IsDirect s.start →
    h.table.contains (h.memory.header s.start).tagBits = true
  /-- The tail of a direct object lies in a block of its size and of its generation. -/
  block : ∀ s ∈ l.objects, h.IsDirect s.start → (h.memory.header s.start).tailBits = .outOfLine →
    ∃ t ∈ l.objects, h.blockLink s.start = some (Word.ofAddr t.start) ∧ h.IsDirect t.start ∧
      (h.memory.header t.start).tagBits = blockTag ∧
      (h.memory.header t.start).tailBits = .inline ∧
      (h.memory.header t.start).sizeBits = (h.memory.header s.start).sizeBits ∧
      (t ∈ l.young ↔ s ∈ l.young) ∧ (t ∈ l.old ↔ s ∈ l.old)
  /-- No two direct objects have the same block. -/
  owner : ∀ s ∈ l.objects, ∀ t ∈ l.objects, h.IsDirect s.start → h.IsDirect t.start →
    (h.memory.header s.start).tailBits = .outOfLine →
    (h.memory.header t.start).tailBits = .outOfLine →
    h.blockLink s.start = h.blockLink t.start → s = t

/-- The remembered set names just old objects, and among them all that refer to the nursery by a
slot or stand for an object there. -/
structure Tracked (h : Heap) (l : Census) : Prop where
  slots : ∀ s ∈ l.old, h.IsDirect s.start → ∃ slots,
    h.memory.slots h.table s.start = .ok slots ∧
    ∀ p ∈ slots.list h.memory, ∀ a, Word.toRef? (h.memory.read p) = some a →
      h.nursery.region.contains a = true → s.start ∈ h.nursery.remembered
  husks : ∀ s ∈ l.old, ∀ a, h.memory.hop? s.start = some a →
    h.nursery.region.contains a = true → s.start ∈ h.nursery.remembered
  old : ∀ a ∈ h.nursery.remembered, IsObject l.old a ∧ h.semispace.active.contains a = true
  /-- The old objects are all that there is in the active half. -/
  tiles : Tiles l.old h.semispace.active.start
    (h.semispace.active.start + h.semispace.active.cursor)

variable {h : Heap} {l : Census} {s : Span} {f : Form} {a p : Nat}

/-- The word that refers to the block is the link. -/
theorem blockLink_eq (hf : h.Object l s f) :
    h.blockLink s.start = some (h.memory.read (f.cell h.memory s.start .link)) := by
  rw [blockLink, Memory.tagBits_of_form? hf.form?, (Memory.form?_eq_some_iff.mp hf.form?).2]
  rfl

section Sound

variable (hs : h.Sound l)
include hs

/-- A direct object has a form. -/
theorem Sound.object_of_direct (hm : s ∈ l.objects) (hd : h.IsDirect s.start) :
    ∃ f, h.Object l s f := by
  rcases hs.wellFormed.header s hm with ⟨f, hf⟩ | ⟨a, ha, hv⟩
  · exact ⟨f, hm, hf⟩
  · have hhop := Memory.hop?_of_read ha (hs.wellFormed.lt_limit hv.denotes.1)
    rw [Memory.hop?_eq_none_iff.mpr hd] at hhop
    cases hhop

/-- The block of an object lies in its generation. -/
theorem Sound.block_generation {t : Span} {g : Form} (hf : h.Object l s f)
    (ht : f.tail = .outOfLine) (hg : h.Object l t g)
    (hl : h.memory.read (f.cell h.memory s.start .link) = Word.ofAddr t.start) :
    (t ∈ l.young ↔ s ∈ l.young) ∧ (t ∈ l.old ↔ s ∈ l.old) := by
  have hc := hs.links s f hf ht t.start
    (by rw [hl]; exact hs.wellFormed.toRef?_ofAddr (.of_mem hg.mem))
  constructor
  · rw [← hs.contains_iff hg.mem, ← hs.contains_iff hf.mem, hc]
  · rw [← hs.not_contains_iff hg.mem, ← hs.not_contains_iff hf.mem, hc]

/-- A sound heap is intact. -/
theorem Sound.intact : h.Intact l := by
  have hw := hs.wellFormed
  refine ⟨fun a ha ↦ (hs.roots a ha).denotes.1, fun s hm hd ↦ ?_, fun s hm a ha ↦ ?_,
    ⟨hs.young, hs.old⟩, fun s hm ↦ ?_, fun s hm ↦ ?_, fun s hm i hi ↦ ?_, hw.apart,
    fun s hm hd ↦ ?_, fun s hm hd ↦ ?_, fun s hm hd ht ↦ ?_,
    fun s hm t hn hd hd' ht ht' he ↦ ?_⟩
  · obtain ⟨f, hf⟩ := hs.object_of_direct hm hd
    refine ⟨_, Memory.slots_of_form? hf.form?, fun p hp a ha ↦ ?_⟩
    obtain ⟨part, hpart, rfl⟩ := hw.mem_slots hf hp
    exact hw.isObject_of_slot hf hpart ha
  · exact (hw.valid_of_hop? (.of_mem hm) ha).denotes.1
  · obtain ⟨h₁, h₂, -⟩ := hs.young.mem hm
    exact ⟨h₁, h₂⟩
  · obtain ⟨h₁, h₂, -⟩ := hs.old.mem hm
    exact ⟨h₁, h₂⟩
  · rcases List.mem_append.mp hm with hy | ho
    · exact hs.nursery_apart_reserve _ (hs.contains_young hy hi)
    · exact hs.active_apart_reserve _ (hs.contains_old ho hi)
  · obtain ⟨f, hf⟩ := hs.object_of_direct hm hd
    rw [Memory.extent_of_form? _ hf.form?, hw.extent s f hf]
  · obtain ⟨f, hf⟩ := hs.object_of_direct hm hd
    rw [Memory.tagBits_of_form? hf.form?]
    exact Memory.contains_of_form? hf.form?
  · obtain ⟨f, hf⟩ := hs.object_of_direct hm hd
    rw [Memory.tailBits_of_form? hf.form?] at ht
    obtain ⟨t, g, hg, hl, hb, hz⟩ := hw.block s f hf ht
    refine ⟨t, hg.mem, by rw [blockLink_eq hf, hl], Memory.isIndirection_of_form? hg.form?, ?_, ?_,
      ?_, hs.block_generation hf ht hg hl⟩
    · rw [Memory.tagBits_of_form? hg.form?]
      exact hb
    · rw [Memory.tailBits_of_form? hg.form?]
      exact hw.inline t g hg hb
    · rw [Memory.sizeBits_of_form? hg.form?, Memory.sizeBits_of_form? hf.form?, hz]
  · obtain ⟨f, hf⟩ := hs.object_of_direct hm hd
    obtain ⟨g, hg⟩ := hs.object_of_direct hn hd'
    rw [Memory.tailBits_of_form? hf.form?] at ht
    rw [Memory.tailBits_of_form? hg.form?] at ht'
    rw [blockLink_eq hf, blockLink_eq hg] at he
    exact hw.owner s f t g hf hg ht ht' (Option.some.inj he)

/-- A sound heap keeps track of the references into its nursery. -/
theorem Sound.tracked : h.Tracked l := by
  refine ⟨fun s hm hd ↦ ?_, hs.remembers.husks, fun a ha ↦ ?_, hs.old⟩
  · obtain ⟨f, hf⟩ := hs.object_of_direct (List.mem_append_right _ hm) hd
    refine ⟨_, Memory.slots_of_form? hf.form?, fun p hp a ha hc ↦ ?_⟩
    obtain ⟨part, hpart, rfl⟩ := hs.wellFormed.mem_slots hf hp
    exact hs.remembers.slots s f hm hf part hpart a ha hc
  · obtain ⟨s, hm, rfl⟩ := hs.remembers.old a ha
    have hc := hs.contains_old hm (hs.wellFormed.nonempty s (List.mem_append_right _ hm))
    exact ⟨.of_mem hm, hc⟩

end Sound

end Heap

namespace Mutator

variable {settings : Settings} {table : TypeTable} {s : Session} {l : Census}

/-- In every heap that a program can reach, references lead to objects, and objects lie apart. -/
theorem Reaches.heap_intact (hr : Reaches settings table s l) : s.heap.Intact l :=
  hr.sound.heap.intact

/-- A run with blocks and an indirection. -/
theorem intact_sample : ∃ s l, Reaches Sample.smallSettings Sample.nodeTable s l ∧
    s.heap.nursery.region.cursor = 8 ∧ s.heap.Intact l := by
  obtain ⟨s, l, hs, hr⟩ := Sample.reaches
  refine ⟨s, l, hr, ?_, hr.heap_intact⟩
  have hc : (Sample.session Sample.smallSettings).map (·.heap.nursery.region.cursor) = some 8 := by
    decide +kernel
  rw [hs] at hc
  exact Option.some.inj hc

/-- In every heap that a program can reach, the remembered set names the old objects that refer to
the nursery. -/
theorem Reaches.heap_tracked (hr : Reaches settings table s l) : s.heap.Tracked l :=
  hr.sound.heap.tracked

/-- A run after which two old objects are remembered. -/
theorem tracked_sample : ∃ s l, Reaches Sample.smallSettings Sample.nodeTable s l ∧
    s.heap.nursery.remembered.length = 2 ∧ s.heap.Tracked l := by
  obtain ⟨s, l, hs, hr⟩ := Sample.reaches
  refine ⟨s, l, hr, ?_, hr.heap_tracked⟩
  have hc : (Sample.session Sample.smallSettings).map (·.heap.nursery.remembered.length) =
      some 2 := by
    decide +kernel
  rw [hs] at hc
  exact Option.some.inj hc

end Mutator

end Tenure
