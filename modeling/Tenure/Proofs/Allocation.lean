import Tenure.Proofs.Collection
import Tenure.Proofs.Placement

/-!
# Allocation

An allocation places a new object at the end of the nursery, after a collection if there is no room
before. Main statement: `ends_allocateWith`, an allocation ends with the object placed or with a
fatal error, and it never goes on to a second collection.
-/

namespace Tenure

/-- The errors of an allocation's sizes can be handed back, so they become fatal. -/
theorem TypeTable.isFatal_of_footprint {table : TypeTable} {tag size : Nat} {tail : TailLayout}
    {padding : Bool} {e : Fault} (h : table.footprint tag size tail padding = .error e) :
    e.escalate.IsFatal := by
  unfold TypeTable.footprint at h
  split at h
  · cases h
    trivial
  · split at h
    · cases h
      trivial
    · cases h

/-- The census with a new object of form `f` at `a`. -/
def Census.place (l : Census) (f : Form) (padding : Bool) (a : Nat) : Census :=
  { l with young := l.young ++ f.spans padding a }

namespace Heap

/-- What placing a new object of form `f` at `a` makes of a heap. -/
structure Placed (h : Heap) (f : Form) (a : Nat) (h' : Heap) : Prop where
  form : Memory.Allocatable h.table f
  bump : h.nursery.region.bump (f.footprint h.settings.padding).words =
    some (a, h'.nursery.region)
  heap : h' = { h with
    memory := (f.footprint h.settings.padding).place h.memory a
    nursery.region := h'.nursery.region }

variable {h h' : Heap} {l : Census} {f : Form} {a : Nat}

section Placed

variable (hs : h.Sound l) (hp : Placed h f a h')
include hp

/-- The new object is written where it is placed. -/
theorem Placed.memory : h'.memory = (f.footprint h.settings.padding).place h.memory a := by
  rw [hp.heap]

/-- The types stay as they are. -/
theorem Placed.table : h'.table = h.table := by rw [hp.heap]

/-- The settings stay as they are. -/
theorem Placed.settings : h'.settings = h.settings := by rw [hp.heap]

/-- The old generation stays as it is. -/
theorem Placed.semispace : h'.semispace = h.semispace := by rw [hp.heap]

/-- The roots stay as they are. -/
theorem Placed.roots : h'.roots = h.roots := by rw [hp.heap]

/-- The counters stay as they are. -/
theorem Placed.statistics : h'.statistics = h.statistics := by rw [hp.heap]

private theorem Placed.remembered : h'.nursery.remembered = h.nursery.remembered := by rw [hp.heap]

private theorem Placed.epoch : h'.nursery.epoch = h.nursery.epoch := by rw [hp.heap]

/-- The nursery covers the same addresses. -/
theorem Placed.contains (b : Nat) :
    h'.nursery.region.contains b = h.nursery.region.contains b := by
  obtain ⟨-, -, hst, hcap, -⟩ := Region.bump_eq_some_iff.mp hp.bump
  simp only [Region.contains, hst, hcap]

include hs

/-- The words of the new object are vacant. -/
theorem Placed.vacant :
    h.memory.Vacant l.objects a (f.footprint h.settings.padding).words := by
  obtain ⟨hle, rfl, -, -, -⟩ := Region.bump_eq_some_iff.mp hp.bump
  have hpos : 0 < (f.footprint h.settings.padding).words :=
    Nat.lt_of_lt_of_le (f.words_pos _) (Memory.words_le_footprint _ _)
  refine ⟨fun i hi ↦ ?_, fun i hi ↦ ?_, fun s hm ↦ ?_⟩
  · rw [Nat.add_assoc]
    exact hs.mapped _ (by simp [regions]) _ (by omega)
  · rw [Nat.add_assoc]
    exact hs.vacant _ (by simp [regions]) _ (by omega) (by omega)
  · rcases List.mem_append.mp hm with hy | ho
    · exact .inl (hs.young.mem hy).2.1
    · apply Span.apart_of_forall_ne (hs.wellFormed.nonempty s hm) hpos
      intro i hi j hj he
      have hn := hs.not_contains_old ho hi
      simp only at he hj
      rw [he, ← Bool.not_eq_true, Region.mem_iff] at hn
      omega

private theorem Placed.wellFormed :
    h'.memory.WellFormed h'.table h'.settings.padding (l.place f h.settings.padding a).objects := by
  rw [hp.memory, hp.table, hp.settings]
  apply (hs.wellFormed.place (hp.vacant hs) hp.form).perm
  simp only [Census.objects, Census.place, List.append_assoc]
  exact List.perm_append_comm.append_left l.young

/-- The objects that there were are as they were. -/
theorem Placed.object_iff {s : Span} {g : Form} :
    h'.Object (l.place f h.settings.padding a) s g ↔ h.Object l s g ∨
      s = ⟨a, f.words h.settings.padding⟩ ∧ g = f ∨
      f.tail = .outOfLine ∧ g = f.block ∧
        s = ⟨a + f.words h.settings.padding, f.block.words h.settings.padding⟩ := by
  have hperm : ∀ t, t ∈ (l.place f h.settings.padding a).objects ↔
      t ∈ l.objects ++ f.spans h.settings.padding a := by
    intro t
    simp only [Census.objects, Census.place, List.mem_append]
    exact or_right_comm
  have hiff := Memory.direct_place_iff (s := s) (g := g) (hp.vacant hs) hs.wellFormed hp.form
  rw [Object, hp.memory, hp.table, Memory.Direct, hperm]
  rw [Memory.Direct] at hiff
  rw [hiff, and_comm (a := g = f.block)]
  rfl

/-- References that there were denote what they denoted. -/
theorem Placed.denotes {b d : Nat} (hd : h.memory.Denotes h.table l.objects b d) :
    h'.memory.Denotes h'.table (l.place f h.settings.padding a).objects b d := by
  have hden := hd.place (hp.vacant hs) hs.wellFormed
  rw [hp.memory, hp.table]
  apply hden.mono
  intro t ht
  simp only [Census.objects, Census.place, List.mem_append] at ht ⊢
  exact or_right_comm.mp ht

private theorem Placed.spaced : h'.Spaced := by
  obtain ⟨hle, rfl, hst, hcap, hcur⟩ := Region.bump_eq_some_iff.mp hp.bump
  have hv := hp.vacant hs
  have hread : ∀ b, (b < h.nursery.region.start + h.nursery.region.cursor ∨
      h.nursery.region.start + h.nursery.region.cursor +
        (f.footprint h.settings.padding).words ≤ b) → h'.memory.read b = h.memory.read b := by
    intro b hb
    rw [hp.memory]
    exact Memory.read_place_of_outside hv hb
  refine ⟨?_, fun r hr i hi ↦ ?_, fun r hr i hi hi' ↦ ?_, ?_, ?_⟩
  · apply Region.pairwise_apart_iff.mpr
    simp only [Region.Apart, hp.contains, hp.semispace]
    exact Region.pairwise_apart_iff.mp hs.apart
  · rw [hp.memory, Memory.mapped_place]
    simp only [regions, hp.semispace, List.mem_cons, List.not_mem_nil, or_false] at hr
    rcases hr with rfl | rfl | rfl
    · rw [hst]
      exact hs.mapped _ (by simp [regions]) i (by omega)
    · exact hs.mapped _ (by simp [regions]) i hi
    · exact hs.mapped _ (by simp [regions]) i hi
  · simp only [regions, hp.semispace, List.mem_cons, List.not_mem_nil, or_false] at hr
    have hout : ∀ b, h.nursery.region.contains b = false → h'.memory.read b = h.memory.read b := by
      intro b hn
      rw [← Bool.not_eq_true, Region.mem_iff] at hn
      exact hread b (by omega)
    have hin : ∀ r : Region, i < r.capacity → r.contains (r.start + i) = true :=
      fun r hi ↦ Region.mem_iff.mpr ⟨by omega, by omega⟩
    rcases hr with rfl | rfl | rfl
    · rw [hst, hread _ (by omega)]
      exact hs.vacant _ (by simp [regions]) i (by omega) (by omega)
    · rw [hout _ (hs.active_apart_nursery _ (hin _ hi'))]
      exact hs.vacant _ (by simp [regions]) i hi hi'
    · rw [hout _ (hs.nursery_apart_reserve.symm _ (hin _ hi'))]
      exact hs.vacant _ (by simp [regions]) i hi hi'
  · rw [hp.semispace, hs.reserve]
  · rw [hp.semispace, hs.capacity]

/-- The headers of the objects that were there stay as they are. -/
theorem Placed.read_start {s : Span} (hm : s ∈ l.objects) :
    h'.memory.read s.start = h.memory.read s.start := by
  rw [hp.memory]
  exact Memory.read_start_place (hp.vacant hs) hs.wellFormed hm

/-- The parts of an object that there was hold what they held. -/
theorem Placed.read_cell {s : Span} {g : Form} (hg : h.Object l s g) {part : Part}
    (hpart : g.Has part) :
    h'.memory.read (g.cell h'.memory s.start part) =
      h.memory.read (g.cell h.memory s.start part) := by
  rw [hp.memory, Memory.cell_place_of_mem (hp.vacant hs) hs.wellFormed hg,
    Memory.read_cell_place_of_mem (hp.vacant hs) hs.wellFormed hg hpart]

/-- The block of the new object is in the nursery, where the object is. -/
theorem Placed.contains_link {b : Nat} (ht : f.tail = .outOfLine)
    (hb : Word.toRef? (h'.memory.read (f.cell h'.memory a .link)) = some b) :
    h.nursery.region.contains b = h.nursery.region.contains a := by
  have hv := hp.vacant hs
  obtain ⟨hle, ha, -⟩ := Region.bump_eq_some_iff.mp hp.bump
  have hfw := Memory.words_footprint h.settings.padding ht
  have hbw := f.block.words_pos h.settings.padding
  have hmapped : h'.memory.Mapped (a + f.words h.settings.padding) := by
    rw [hp.memory, Memory.mapped_place]
    exact hv.mapped _ (by omega)
  have hlink : h'.memory.read (f.cell h'.memory a .link) =
      Word.ofAddr (a + f.words h.settings.padding) := by
    rw [hp.memory]
    exact Memory.read_link_place hv ht
  rw [hlink, hmapped.toRef?_ofAddr] at hb
  cases hb
  rw [Region.mem_iff.mpr ⟨by omega, by omega⟩, Region.mem_iff.mpr]
  exact ⟨by omega, by omega⟩

/-- A new object is young, so what is remembered stays as it is. -/
theorem Placed.remembers : h'.Remembers (l.place f h.settings.padding a) := by
  constructor
  case old =>
    rw [hp.remembered]
    exact hs.remembers.old
  case slots =>
    intro s g hm hg part hpart b hb hc
    have hmo : s ∈ l.objects := List.mem_append_right _ hm
    have hg : h.Object l s g := by
      refine ⟨hmo, ?_⟩
      rw [← Memory.form?_congr (hp.read_start hs hmo), ← hp.table]
      exact hg.2
    rw [hp.read_cell hs hg hpart.has] at hb
    rw [hp.contains] at hc
    rw [hp.remembered]
    exact hs.remembers.slots s g hm hg part hpart b hb hc
  case husks =>
    intro s hm b hb hc
    rw [Memory.hop?_congr (hp.read_start hs (List.mem_append_right _ hm))] at hb
    rw [hp.contains] at hc
    rw [hp.remembered]
    exact hs.remembers.husks s hm b hb hc

/-- The heap is sound with the new object. -/
theorem Placed.sound : h'.Sound (l.place f h.settings.padding a) := by
  obtain ⟨-, ha, hst, -, hcur⟩ := Region.bump_eq_some_iff.mp hp.bump
  refine ⟨hp.spaced hs, ?_, ?_, hp.wellFormed hs, ?_, ?_, hp.remembers hs, ?_⟩
  · refine tiles_append.mpr ⟨_, by rw [hst]; exact hs.young, ?_⟩
    have htiles := f.tiles_spans h.settings.padding a
    rw [ha, Nat.add_assoc] at htiles
    rw [hst, hcur, ha]
    exact htiles
  · rw [hp.semispace]
    exact hs.old
  · intro s g hg ht b hb
    rw [hp.contains, hp.contains]
    rcases (hp.object_iff hs).mp hg with hg | ⟨rfl, rfl⟩ | ⟨hft, rfl, rfl⟩
    · rw [hp.read_cell hs hg (show g.Has .link from ht)] at hb
      exact hs.links s g hg ht b hb
    · exact hp.contains_link hs ht hb
    · cases ht
  · intro b hb
    rw [hp.roots] at hb
    exact (hp.denotes hs (hs.roots b hb).denotes).valid
  · rw [hp.epoch, hs.epoch]

/-- An object that there was looks as it did. -/
theorem Placed.view {s : Span} {g : Form} (hg : h.Object l s g) (hb : ¬ g.IsBlock) :
    h'.memory.view h'.table s.start = h.memory.view h.table s.start := by
  have hg' := (hp.object_iff hs).mpr (.inl hg)
  rw [hp.table]
  apply Memory.view_congr hg.form? hb (by rw [← hp.table]; exact hg'.form?)
  · intro part hpart _
    exact hp.read_cell hs hg hpart
  · intro part hpart
    have hden := hs.wellFormed.denoted?_eq_map hg hpart (hp.read_cell hs hg hpart.has)
      fun b d hd ↦ (hp.denotes hs hd).resolve
    rwa [Option.map_id'] at hden

/-- Placing an object changes nothing of the graph that the roots reach. -/
theorem Placed.sameGraph : SameGraph id h h' := by
  have hheader : ∀ d, h.Live d → h'.memory.header d = h.memory.header d := by
    intro d hd
    obtain ⟨s, g, hg, rfl, -⟩ := hd.object hs
    rw [Memory.header, Memory.header, hp.read_start hs hg.mem]
  refine ⟨hp.table, hp.settings, ?_, fun _ _ _ _ he ↦ he, fun d hd ↦ ?_, fun d hd ↦ ?_,
    fun d hd ↦ ?_, fun d hd ↦ ?_⟩
  · rw [hp.roots, List.map_id]
    apply List.map_congr_left
    intro b hb
    have hden := (hs.roots b hb).denotes
    exact (hp.denotes hs hden).resolve
  · obtain ⟨s, g, hg, rfl, hb⟩ := hd.object hs
    rw [id, hp.view hs hg hb, Contents.map_map_id]
  · rw [id, hheader d hd]
  · rw [id, hheader d hd]
  · exact .inl (by rw [id, hheader d hd])

end Placed

/-! ### The steps of an allocation -/

/-- Without an epoch, an object is only refused because no header can hold its tag. -/
theorem maxTag_lt_of_tryPlace {fp : Footprint} {e : Fault} (hn : h.nursery.epoch = none)
    (he : tryPlace fp h = .error e h') :
    maxTag < fp.tag ∧ e = .fatal (.encodingMisuse .tagTooLarge) := by
  simp only [tryPlace, hn, Option.isSome_none, Bool.false_eq_true, if_false] at he
  split at he
  · cases he
  · split at he
    · next hlt =>
      cases he
      exact ⟨hlt, rfl⟩
    · cases he

/-- An object is placed if it fits as a whole and a header can hold its tag. -/
theorem ends_tryPlace (hs : h.Sound l) (hb : ¬ f.IsBlock) (ht : h.table.get? f.tag = some f.type)
    (hz : f.size ≤ maxTailSize) :
    Ends (tryPlace (f.footprint h.settings.padding)) h
      (fun r h' ↦ match r with
        | none => h' = h ∧ h.nursery.region.capacity <
            h.nursery.region.cursor + (f.footprint h.settings.padding).words
        | some a => Placed h f a h')
      (fun e h' ↦ h' = h ∧ e = .fatal (.encodingMisuse .tagTooLarge)) := by
  have hepoch : h.nursery.epoch.isSome = false := by rw [hs.epoch]; rfl
  unfold Ends tryPlace
  simp only [hepoch, Bool.false_eq_true, if_false]
  cases hbump : h.nursery.region.bump (f.footprint h.settings.padding).words with
  | none => exact ⟨rfl, Region.bump_eq_none_iff.mp hbump⟩
  | some c =>
    obtain ⟨a, region⟩ := c
    simp only
    split
    · next h' r h'' he =>
      split at he
      · cases he
      · next hle =>
        cases he
        exact ⟨⟨ht, hb, by simpa [Form.footprint] using hle, hz⟩, hbump, rfl⟩
    · next e h'' he =>
      split at he
      · cases he
        exact ⟨rfl, rfl⟩
      · cases he

/-- An allocation starts from the heap as it is, or from one that was collected. -/
def Ready (h : Heap) (l : Census) (h₁ : Heap) (l₁ : Census) : Prop :=
  h₁ = h ∧ l₁ = l ∨ Collected h l h₁ l₁ ∧ h₁.Headroom

/-- The heap from which an object is placed is sound. -/
theorem Ready.sound {h₁ : Heap} {l₁ : Census} (hr : Ready h l h₁ l₁) (hs : h.Sound l) :
    h₁.Sound l₁ := by
  rcases hr with ⟨rfl, rfl⟩ | ⟨hc, -⟩
  · exact hs
  · exact hc.sound

/-- The graph that the roots reach is as it was. -/
theorem Ready.sameGraph {h₁ : Heap} {l₁ : Census} (hr : Ready h l h₁ l₁) :
    ∃ φ, SameGraph φ h h₁ := by
  rcases hr with ⟨rfl, rfl⟩ | ⟨hc, -⟩
  · exact ⟨id, .refl _⟩
  · exact hc.graph

/-- An allocation has failed: the heap is exhausted, or it is ready for another one. -/
def Declines (h : Heap) (l : Census) (e : Fault) (h' : Heap) : Prop :=
  h.Exhausts e h' ∨ ¬ e.IsExhausted ∧ ∃ l', Ready h l h' l'

/-- The new object joins the census. -/
theorem Placed.follows {h₁ : Heap} {l₁ : Census} (hr : Ready h l h₁ l₁) (hs : h.Sound l)
    (hp : Placed h₁ f a h') : Follows h l h' (l₁.place f h₁.settings.padding a) := by
  have hs₁ := hr.sound hs
  have hep : h'.epochs = h₁.epochs := by rw [epochs, epochs, hp.statistics]
  have hsw : h'.swaps = h₁.swaps := by rw [swaps, swaps, hp.statistics]
  have hst : h'.nursery.region.start = h₁.nursery.region.start :=
    (Region.bump_eq_some_iff.mp hp.bump).2.2.1
  have hnew : ∀ s ∈ f.spans h₁.settings.padding a,
      ∃ g, h'.Object (l₁.place f h₁.settings.padding a) s g := by
    intro s hm
    cases hft : f.tail with
    | inline =>
      simp only [Form.spans, hft, List.mem_singleton] at hm
      exact ⟨f, (hp.object_iff hs₁).mpr (.inr (.inl ⟨hm, rfl⟩))⟩
    | outOfLine =>
      simp only [Form.spans, hft, List.mem_cons, List.not_mem_nil, or_false] at hm
      rcases hm with rfl | rfl
      · exact ⟨f, (hp.object_iff hs₁).mpr (.inr (.inl ⟨rfl, rfl⟩))⟩
      · exact ⟨f.block, (hp.object_iff hs₁).mpr (.inr (.inr ⟨hft, rfl, rfl⟩))⟩
  have hkeep : ∀ {s}, (∃ g, h₁.Object l₁ s g) →
      ∃ g, h'.Object (l₁.place f h₁.settings.padding a) s g := by
    rintro s ⟨g, hg⟩
    exact ⟨g, (hp.object_iff hs₁).mpr (.inl hg)⟩
  rcases hr with ⟨rfl, rfl⟩ | ⟨hc, -⟩
  · exact ⟨.inl ⟨hep, hst, _, rfl, hnew⟩,
      .inl ⟨hsw, by rw [hp.semispace], [], by simp [Census.place], by simp⟩⟩
  · refine ⟨.inr ⟨?_, ?_⟩, ?_⟩
    · have := hc.epochs
      omega
    · simp only [Census.place, hc.young, List.nil_append]
      simpa only [Census.place, hc.young, List.nil_append] using hnew
    · rcases hc.old with ⟨he, hst', xs, hxs, hd⟩ | ⟨hlt, hd⟩
      · exact .inl ⟨hsw.trans he, by rw [hp.semispace, hst'], xs, hxs,
          fun s hm ↦ hkeep (hd s hm)⟩
      · exact .inr ⟨by omega, fun s hm ↦ hkeep (hd s hm)⟩

/-- What fits the nursery as a whole fits it after a collection. -/
theorem Collected.fits {l₁ : Census} {words : Nat} (hc : Collected h l h' l₁)
    (hfit : words ≤ h.nursery.region.capacity) :
    h'.nursery.region.cursor + words ≤ h'.nursery.region.capacity := by
  simpa only [hc.nursery, Region.reset, Nat.zero_add] using hfit

/-- What passes the check of its bytes fits the nursery as a whole. -/
theorem words_le_capacity {fp : Footprint} (hle : ¬ h.nursery.region.capacityBytes < fp.bytes) :
    fp.words ≤ h.nursery.region.capacity := by
  simp only [Footprint.bytes, Region.capacityBytes, wordBytes] at hle
  omega

/-- An object that fits the nursery as a whole is placed after one collection at most. -/
theorem ends_placeCollecting (hs : h.Sound l) (hb : ¬ f.IsBlock)
    (ht : h.table.get? f.tag = some f.type) (hz : f.size ≤ maxTailSize)
    (hfit : (f.footprint h.settings.padding).words ≤ h.nursery.region.capacity) :
    Ends (placeCollecting (f.footprint h.settings.padding) 1) h
      (fun a h' ↦ ∃ h₁ l₁, Ready h l h₁ l₁ ∧ h₁.settings = h.settings ∧ Placed h₁ f a h')
      (fun e h' ↦ e.IsFatal ∧ Declines h l e h') := by
  rw [placeCollecting]
  refine ((ends_tryPlace hs hb ht hz).mono (fun _ _ hg ↦ hg) ?_).bind fun r h' hr ↦ ?_
  · rintro e h' ⟨rfl, rfl⟩
    exact ⟨trivial, .inr ⟨id, l, .inl ⟨rfl, rfl⟩⟩⟩
  · cases r with
    | some a => exact ends_pure_iff.mpr ⟨h, l, .inl ⟨rfl, rfl⟩, rfl, hr⟩
    | none =>
      obtain ⟨rfl, -⟩ := hr
      apply ((ends_collect hs).mono (fun _ _ hg ↦ hg) fun e h₁ ⟨he, hsp⟩ ↦
        ⟨he.isFatal, .inl ⟨he, fun hr ↦ (hsp hr).fault⟩⟩).bind
      rintro _ h₁ ⟨⟨l₁, hc⟩, _, hroom⟩
      obtain ⟨φ, hg⟩ := hc.graph
      have hfs : f.footprint h'.settings.padding = f.footprint h₁.settings.padding := by
        rw [hg.settings]
      rw [hfs, placeCollecting]
      refine ((ends_tryPlace hc.sound hb (by rw [hg.table, ht]) hz).mono (fun _ _ hg ↦ hg) ?_).bind
        fun r h₂ hr ↦ ?_
      · rintro e h₂ ⟨rfl, rfl⟩
        exact ⟨trivial, .inr ⟨id, l₁, .inr ⟨hc, hroom⟩⟩⟩
      · cases r with
        | some a => exact ends_pure_iff.mpr ⟨h₁, l₁, .inr ⟨hc, hroom⟩, hg.settings, hr⟩
        | none =>
          exact absurd hr.2 (Nat.not_lt.mpr (hc.fits (hfs ▸ hfit)))

/-- An allocation places an object as asked for, or it ends with a fatal error. -/
theorem ends_allocateWith {tag size : Nat} {tail : TailLayout} (hs : h.Sound l) :
    Ends (allocateWith tag size tail) h
      (fun a h' ↦ ∃ h₁ l₁ type, Ready h l h₁ l₁ ∧ h₁.settings = h.settings ∧
        Placed h₁ ⟨tag, size, tail, type⟩ a h')
      (fun e h' ↦ e.IsFatal ∧ Declines h l e h') := by
  have hsame : ∃ l', Ready h l h l' := ⟨l, .inl ⟨rfl, rfl⟩⟩
  rw [allocateWith, ends_ask_bind]
  cases hfp : h.table.footprint tag size tail h.settings.padding with
  | error e => exact ⟨TypeTable.isFatal_of_footprint hfp, .inr ⟨tame_footprint e hfp, hsame⟩⟩
  | ok fp =>
    obtain ⟨type, hn, hty, hz, rfl⟩ := TypeTable.footprint_eq_ok_iff.mp hfp
    rw [escalating, ends_bind_iff, ends_attempt_ok, ends_ask_bind]
    split
    · exact ends_throw_iff.mpr ⟨trivial, .inr ⟨id, hsame⟩⟩
    · next hle =>
      have hb : ¬ (⟨tag, size, tail, type⟩ : Form).IsBlock := hn
      apply (ends_placeCollecting hs hb hty hz (words_le_capacity hle)).imp
      rintro a h' ⟨h₁, l₁, hr, hset, hp⟩
      exact ⟨h₁, l₁, type, hr, hset, hp⟩

/-- An allocation that leaves the layout of the tail to the settings goes as one that names it. -/
theorem ends_allocate {tag size : Nat} (hs : h.Sound l) :
    Ends (allocate tag size) h
      (fun a h' ↦ ∃ h₁ l₁ type tail, Ready h l h₁ l₁ ∧ h₁.settings = h.settings ∧
        Placed h₁ ⟨tag, size, tail, type⟩ a h')
      (fun e h' ↦ e.IsFatal ∧ Declines h l e h') := by
  rw [allocate, ends_ask_bind]
  exact (ends_allocateWith hs).imp fun a h' ⟨h₁, l₁, type, hr, hset, hp⟩ ↦
    ⟨h₁, l₁, type, _, hr, hset, hp⟩

end Heap

end Tenure
