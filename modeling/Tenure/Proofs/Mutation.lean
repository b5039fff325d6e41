import Tenure.Heap.Access
import Tenure.Proofs.Graph
import Tenure.Proofs.Store

/-!
# Writes between collections

A program changes an object by writing one of its parts, or by letting it stand for another object.
Both end with the write barrier, so the remembered set keeps up. Main statements: `Stored.sound` and
`Redirected.sound`, the heap stays sound; `Stored.view` and `Redirected.view`, what the objects look
like afterwards.
-/

namespace Tenure

variable {ρ : Type}

/-- Replace one unit, by a word or by a reference as the units are. -/
def Units.store (u : Units ρ) (i : Nat) (w : Word) (v : Option ρ) : Units ρ :=
  match u with
  | .words values => .words (values.set i w)
  | .refs values => .refs (values.set i v)

/-- Replace one part, by a word or by a reference as the part is. -/
def Contents.store (c : Contents ρ) (part : Part) (w : Word) (v : Option ρ) : Contents ρ :=
  match part with
  | .prim i => { c with prims := c.prims.set i w }
  | .ptr i => { c with ptrs := c.ptrs.set i v }
  | .link => c
  | .unit i => { c with units := c.units.store i w v }

/-- Storing and renaming may change places. -/
theorem Contents.map_store {σ : Type} (φ : ρ → σ) (c : Contents ρ) (part : Part) (w : Word)
    (v : Option ρ) :
    (c.store part w v).map φ = (c.map φ).store part w (v.map φ) := by
  cases part with
  | prim i => rfl
  | ptr i => simp only [store, map, List.map_set]
  | link => rfl
  | unit i =>
    simp only [store, map]
    cases c.units with
    | words values => rfl
    | refs values => simp only [Units.store, Units.map, List.map_set]

namespace Heap

/-- The heap with a new memory, after the write barrier for an object and the reference that was
stored in it. -/
def barred (h : Heap) (m : Memory) (object : Nat) (value : Option Nat) : Heap :=
  { h with
    memory := m
    nursery.remembered :=
      if h.nursery.region.contains object = false ∧
          ∃ young ∈ value, h.nursery.region.contains young = true then
        (h.nursery.remember object).remembered
      else h.nursery.remembered }

/-- What writing a word `w` to a part of an object makes of a heap. If the part holds references,
the word is one to `v`. -/
structure Stored (h : Heap) (l : Census) (s : Span) (f : Form) (part : Part) (w : Word)
    (v : Option Nat) (h' : Heap) : Prop where
  object : h.Object l s f
  notBlock : ¬ f.IsBlock
  has : f.Has part
  notLink : part ≠ .link
  value : f.Refers part → w = Word.ofRef? v
  valid : ∀ a, v = some a → h.Valid l a
  heap : h' = h.barred (h.memory.write (f.cell h.memory s.start part) w) s.start v

/-- What letting one object stand for another makes of a heap. -/
structure Redirected (h : Heap) (l : Census) (s t : Span) (h' : Heap) : Prop where
  object : ∃ f, h.Object l s f ∧ ¬ f.IsBlock
  target : ∃ g, h.Object l t g ∧ ¬ g.IsBlock
  distinct : s ≠ t
  heap : h' = h.barred (h.memory.redirect s.start t.start) s.start (some t.start)

variable {h h' : Heap} {l : Census} {m : Memory} {s t : Span} {f g : Form} {part : Part}
  {w : Word} {v : Option Nat} {a b object : Nat}

private theorem map_range_set {α : Type} {x y : Nat → α} {n i : Nat} {e : α} (hi : y i = e)
    (hne : ∀ j < n, j ≠ i → y j = x j) :
    (List.range n).map y = ((List.range n).map x).set i e := by
  apply List.ext_getElem (by simp)
  intro j hj hj'
  rw [List.getElem_set]
  simp only [List.getElem_map, List.getElem_range]
  split
  · next he => rw [← he, hi]
  · next he =>
    rw [List.length_map, List.length_range] at hj
    exact hne j hj fun h ↦ he h.symm

/-! ### The remembered set -/

/-- To remember an object adds it to those remembered. -/
theorem mem_remember {n : Nursery} : b ∈ (n.remember a).remembered ↔ b ∈ n.remembered ∨ b = a := by
  unfold Nursery.remember
  split
  · next hm =>
    constructor
    · exact .inl
    · rintro (hb | rfl)
      · exact hb
      · exact hm
  · rw [List.mem_cons, or_comm]

/-- An old object joins the remembered set if what was stored in it is young. -/
theorem mem_remembered_barred : b ∈ (h.barred m object v).nursery.remembered ↔
    b ∈ h.nursery.remembered ∨ b = object ∧ h.nursery.region.contains object = false ∧
      ∃ young ∈ v, h.nursery.region.contains young = true := by
  simp only [barred]
  split
  · next hc => rw [mem_remember, and_iff_left hc]
  · next hc => simp only [hc, and_false, or_false]

/-- The write barrier after a change of the memory. -/
theorem writeBarrier_eq (h : Heap) (m : Memory) (object : Nat) (value : Option Nat) :
    writeBarrier object value { h with memory := m } = .ok () (h.barred m object value) := by
  cases value with
  | none => simp [writeBarrier, change, barred]
  | some young =>
    simp only [writeBarrier, change, barred, Option.mem_def, Option.some.injEq,
      exists_eq_left', Bool.and_eq_true, Bool.not_eq_true']
    split
    · next hc =>
      simp only [Nursery.remember]
      split <;> rfl
    · rfl

/-! ### What stays as it is -/

section Barred

variable (hs : h.Sound l)
include hs

/-- A word of an object lies in use. -/
theorem Sound.in_use (hm : s ∈ l.objects) {i : Nat} (hi : i < s.words) {r : Region}
    (hr : r ∈ h.regions) (hc : r.contains (s.start + i) = true) :
    s.start + i < r.start + r.cursor := by
  simp only [regions, List.mem_cons, List.not_mem_nil, or_false] at hr
  rcases List.mem_append.mp hm with hy | ho
  · have hcy := hs.contains_young hy hi
    have ht := hs.young.mem hy
    simp only [Span.stop] at ht
    rcases hr with rfl | rfl | rfl
    · omega
    · rw [hs.nursery_apart_active _ hcy] at hc
      cases hc
    · rw [hs.nursery_apart_reserve _ hcy] at hc
      cases hc
  · have hco := hs.contains_old ho hi
    have ht := hs.old.mem ho
    simp only [Span.stop] at ht
    rcases hr with rfl | rfl | rfl
    · rw [hs.active_apart_nursery _ hco] at hc
      cases hc
    · omega
    · rw [hs.active_apart_reserve _ hco] at hc
      cases hc

/-- Writing to a word of an object leaves what is not in use as it is. -/
theorem Sound.spaced_barred (ht : t ∈ l.objects) {i : Nat} (hi : i < t.words) (w : Word)
    (object : Nat) (v : Option Nat) :
    (h.barred (h.memory.write (t.start + i) w) object v).Spaced := by
  refine ⟨hs.apart, fun r hr j hj ↦ ?_, fun r hr j hj hj' ↦ ?_, hs.reserve, hs.capacity⟩
  · simp only [barred, Memory.mapped_write]
    exact hs.mapped r hr j hj
  · have hr' : r ∈ h.regions := hr
    have hne : t.start + i ≠ r.start + j := by
      intro he
      have hu := hs.in_use ht hi hr' (by rw [he]; exact Region.mem_iff.mpr ⟨by omega, by omega⟩)
      omega
    simp only [barred]
    rw [Memory.read_write_of_ne w hne]
    exact hs.vacant r hr' j hj hj'

/-- A part of an object is a word of some object. -/
theorem Sound.cell_mem (hf : h.Object l s f) (hp : f.Has part) :
    ∃ t ∈ l.objects, ∃ i < t.words, f.cell h.memory s.start part = t.start + i := by
  obtain ⟨t, ht, i, -, hi, hc⟩ := hs.wellFormed.cell_mem hf hp
  exact ⟨t, ht, i, hi, hc⟩

/-- A heap stays sound when its memory changes, if a reference that leads out of an object did so
before or is the one that the write barrier is told of. -/
theorem Sound.barred (hm : s ∈ l.objects) (hsp : (h.barred m s.start v).Spaced)
    (hw : m.WellFormed h.table h.settings.padding l.objects)
    (hvalid : ∀ a, h.Valid l a → m.Valid h.table l.objects a)
    (hslots : ∀ t g, m.Direct h.table l.objects t g → ∀ part, g.IsSlot part → ∀ a,
      Word.toRef? (m.read (g.cell m t.start part)) = some a →
      h.Object l t g ∧ Word.toRef? (h.memory.read (g.cell h.memory t.start part)) = some a ∨
        part ≠ .link ∧ t = s ∧ v = some a)
    (hhusks : ∀ t ∈ l.old, ∀ a, m.hop? t.start = some a →
      h.memory.hop? t.start = some a ∨ t = s ∧ v = some a) :
    (h.barred m s.start v).Sound l := by
  have hold : s ∈ l.old → h.nursery.region.contains s.start = false := (hs.not_contains_iff hm).mpr
  have hrem : (h.barred m s.start v).Remembers l := by
    constructor
    · intro a ha
      rcases mem_remembered_barred.mp ha with ha | ⟨rfl, hn, -⟩
      · exact hs.remembers.old a ha
      · exact .of_mem ((hs.not_contains_iff hm).mp hn)
    · intro t g ht hg part hp a ha hc
      apply mem_remembered_barred.mpr
      rcases hslots t g hg part hp a ha with ⟨hg, ha⟩ | ⟨-, rfl, hv⟩
      · exact .inl (hs.remembers.slots t g ht hg part hp a ha hc)
      · exact .inr ⟨rfl, hold ht, a, hv, hc⟩
    · intro t ht a ha hc
      apply mem_remembered_barred.mpr
      rcases hhusks t ht a ha with ha | ⟨rfl, hv⟩
      · exact .inl (hs.remembers.husks t ht a ha hc)
      · exact .inr ⟨rfl, hold ht, a, hv, hc⟩
  refine ⟨hsp, hs.young, hs.old, hw, ?_, fun a ha ↦ hvalid a (hs.roots a ha), hrem, hs.epoch⟩
  intro t g hg ht a ha
  rcases hslots t g hg .link (.inr ⟨rfl, ht⟩) a ha with ⟨hg, ha⟩ | ⟨hl, -⟩
  · exact hs.links t g hg ht a ha
  · exact absurd rfl hl

end Barred

/-! ### Writing a part -/

section Stored

variable (hs : h.Sound l) (hst : Stored h l s f part w v h')
include hst

private theorem Stored.memory : h'.memory = h.memory.write (f.cell h.memory s.start part) w := by
  rw [hst.heap]
  rfl

/-- The types stay as they are. -/
theorem Stored.table : h'.table = h.table := by
  rw [hst.heap]
  rfl

/-- The roots stay as they are. -/
theorem Stored.roots : h'.roots = h.roots := by
  rw [hst.heap]
  rfl

include hs

/-- No header is written. -/
theorem Stored.read_start (ht : t ∈ l.objects) :
    h'.memory.read t.start = h.memory.read t.start := by
  rw [hst.memory]
  exact Memory.read_start_write_part hs.wellFormed hst.object hst.has ht

/-- The objects stay where they are, in the same form. -/
theorem Stored.object_iff : h'.Object l t g ↔ h.Object l t g := by
  rw [Object, hst.table]
  exact Memory.direct_congr fun u hu ↦ hst.read_start hs hu

/-- References denote what they denoted. -/
theorem Stored.denotes {d : Nat} (hd : h.memory.Denotes h.table l.objects a d) :
    h'.memory.Denotes h'.table l.objects a d := by
  rw [hst.table]
  exact hd.congr (fun u hu ↦ hst.read_start hs hu) hs.wellFormed

/-- What was valid stays valid. -/
theorem Stored.valid_of_valid (hv : h.Valid l a) : h'.Valid l a :=
  (hst.denotes hs hv.denotes).valid

private theorem Stored.cell (hg : h.Object l t g) {part' : Part} :
    g.cell h'.memory t.start part' = g.cell h.memory t.start part' := by
  rw [hst.memory]
  exact Memory.cell_write_part hs.wellFormed hst.object hst.notBlock hst.has hst.notLink hg

/-- The part holds what was written. -/
theorem Stored.read_cell :
    h'.memory.read (f.cell h'.memory s.start part) = w := by
  rw [hst.cell hs hst.object, hst.memory,
    Memory.read_write_self w (hs.wellFormed.mapped_cell hst.object hst.has)]

/-- All other parts hold what they held. -/
theorem Stored.read_cell_of_ne (hg : h.Object l t g) (hgb : ¬ g.IsBlock) {part' : Part}
    (hp' : g.Has part') (hne : ¬ (s = t ∧ part = part')) :
    h'.memory.read (g.cell h'.memory t.start part') =
      h.memory.read (g.cell h.memory t.start part') := by
  rw [hst.cell hs hg, hst.memory]
  exact Memory.read_cell_write_part hs.wellFormed hst.object hst.notBlock hst.has hg hgb hp' hne

/-- The heap stays sound when a part is written. -/
theorem Stored.sound : h'.Sound l := by
  have hw := hs.wellFormed
  have hwf : (h.memory.write (f.cell h.memory s.start part) w).WellFormed h.table
      h.settings.padding l.objects := by
    apply hw.write_part hst.object hst.notBlock hst.has hst.notLink
    intro hr
    rw [hst.value hr]
    cases hv : v with
    | none => exact .inl rfl
    | some a => exact .inr ⟨a, rfl, hst.valid a hv⟩
  have hspaced : h'.Spaced := by
    obtain ⟨t, ht, i, hi, hc⟩ := hs.cell_mem hst.object hst.has
    rw [hst.heap, hc]
    exact hs.spaced_barred ht hi w _ _
  have hslot : ∀ {t g}, h.Object l t g → ∀ {part'}, g.IsSlot part' → ¬ g.IsBlock :=
    fun hg _ hp' ↦ hw.not_isBlock_of_isSlot hg hp'
  have hmemory := hst.memory
  have htable := hst.table
  have hheap := hst.heap
  rw [hheap] at hspaced ⊢
  apply hs.barred hst.object.mem hspaced hwf
  · rw [← hmemory, ← htable]
    exact fun a ha ↦ hst.valid_of_valid hs ha
  · rw [← hmemory, ← htable]
    intro t g hg part' hp' a ha
    have hg := (hst.object_iff hs).mp hg
    by_cases he : s = t ∧ part = part'
    · obtain ⟨rfl, rfl⟩ := he
      obtain rfl := hst.object.unique hg
      have hr : f.Refers part := hp'.resolve_right fun hl ↦ hst.notLink hl.1
      rw [hst.read_cell hs, hst.value hr] at ha
      refine .inr ⟨hst.notLink, rfl, ?_⟩
      cases hv : v with
      | none =>
        rw [hv] at ha
        cases ha
      | some b =>
        rw [hv, Word.ofRef?, hw.toRef?_ofAddr (hst.valid b hv).denotes.1] at ha
        exact ha
    · rw [hst.read_cell_of_ne hs hg (hslot hg hp') hp'.has he] at ha
      exact .inl ⟨hg, ha⟩
  · rw [← hmemory]
    intro t ht a ha
    rw [Memory.hop?_congr (hst.read_start hs (List.mem_append_right _ ht))] at ha
    exact .inl ha

/-- A valid reference denotes what it denoted. -/
theorem Stored.resolve (hv : h.Valid l a) : h'.memory.resolve a = h.memory.resolve a :=
  (hst.denotes hs hv.denotes).resolve

/-- What a reference part denotes after the write, if it is not the one written. -/
theorem Stored.denoted?_of_ne (hg : h.Object l t g) (hgb : ¬ g.IsBlock) {part' : Part}
    (hr : g.Refers part') (hne : ¬ (s = t ∧ part = part')) :
    h'.memory.denoted? (g.cell h'.memory t.start part') =
      h.memory.denoted? (g.cell h.memory t.start part') := by
  have hden := hs.wellFormed.denoted?_eq_map hg hr (hst.read_cell_of_ne hs hg hgb hr.has hne)
    fun b d hd ↦ (hst.denotes hs hd).resolve
  rwa [Option.map_id'] at hden

/-- What the part denotes after the write, if it holds references. -/
theorem Stored.denoted? (hr : f.Refers part) :
    h'.memory.denoted? (f.cell h'.memory s.start part) = v.map h.memory.resolve := by
  rw [Memory.denoted?, hst.read_cell hs, hst.value hr]
  cases hv : v with
  | none => rw [Word.ofRef?, Word.toRef?_null, Option.map_none, Option.map_none]
  | some b =>
    have hb := hst.valid b hv
    rw [Word.ofRef?, hs.wellFormed.toRef?_ofAddr hb.denotes.1, Option.map_some, Option.map_some,
      hst.resolve hs hb]

/-- All other objects look as they did. -/
theorem Stored.view_of_ne (hg : h.Object l t g) (hgb : ¬ g.IsBlock) (hne : s ≠ t) :
    h'.memory.view h'.table t.start = h.memory.view h.table t.start := by
  have hg' : h'.memory.Direct h'.table l.objects t g := (hst.object_iff hs).mpr hg
  rw [hst.table] at hg' ⊢
  apply Memory.view_congr hg.form? hgb hg'.form?
  · intro part' hp' _
    exact hst.read_cell_of_ne hs hg hgb hp' fun he ↦ hne he.1
  · intro part' hr
    exact hst.denoted?_of_ne hs hg hgb hr fun he ↦ hne he.1

/-- The object looks as it did but for the part that was written. -/
theorem Stored.view : h'.memory.view h'.table s.start =
    (h.memory.view h.table s.start).map (·.store part w (v.map h.memory.resolve)) := by
  have hf := hst.object
  have hb := hst.notBlock
  have hf' := (hst.object_iff hs).mpr hf
  have hread : ∀ part', f.Has part' → part' ≠ part →
      h'.memory.read (f.cell h'.memory s.start part') =
        h.memory.read (f.cell h.memory s.start part') :=
    fun part' hp' hne ↦ hst.read_cell_of_ne hs hf hb hp' fun he ↦ hne he.2.symm
  have hden : ∀ part', f.Refers part' → part' ≠ part →
      h'.memory.denoted? (f.cell h'.memory s.start part') =
        h.memory.denoted? (f.cell h.memory s.start part') :=
    fun part' hr hne ↦ hst.denoted?_of_ne hs hf hb hr fun he ↦ hne he.2.symm
  rw [Memory.view_of_form? hf.form? hb, Memory.view_of_form? hf'.form? hb, Option.map_some,
    Option.some.injEq]
  have hprims : (∀ i, part ≠ .prim i) →
      (List.range f.type.prims).map (fun i ↦ h'.memory.read (f.cell h'.memory s.start (.prim i))) =
        (List.range f.type.prims).map fun i ↦ h.memory.read (f.cell h.memory s.start (.prim i)) :=
    fun hne ↦ List.map_congr_left fun i hi ↦ hread _ (List.mem_range.mp hi) (hne i).symm
  have hptrs : (∀ i, part ≠ .ptr i) →
      (List.range f.type.ptrs).map
          (fun i ↦ h'.memory.denoted? (f.cell h'.memory s.start (.ptr i))) =
        (List.range f.type.ptrs).map
          fun i ↦ h.memory.denoted? (f.cell h.memory s.start (.ptr i)) :=
    fun hne ↦ List.map_congr_left fun i hi ↦ hden _ (List.mem_range.mp hi) (hne i).symm
  have hwords : (∀ i, part ≠ .unit i) →
      (List.range f.size).map (fun i ↦ h'.memory.read (f.cell h'.memory s.start (.unit i))) =
        (List.range f.size).map fun i ↦ h.memory.read (f.cell h.memory s.start (.unit i)) :=
    fun hne ↦ List.map_congr_left fun i hi ↦ hread _ (List.mem_range.mp hi) (hne i).symm
  have hrefs : f.type.units = .refs → (∀ i, part ≠ .unit i) →
      (List.range f.size).map (fun i ↦ h'.memory.denoted? (f.cell h'.memory s.start (.unit i))) =
        (List.range f.size).map fun i ↦ h.memory.denoted? (f.cell h.memory s.start (.unit i)) :=
    fun hk hne ↦ List.map_congr_left fun i hi ↦
      hden _ ⟨List.mem_range.mp hi, hk⟩ (hne i).symm
  have hp := hst.has
  -- Of the lists that make up the contents, just the one with the part has changed.
  cases part with
  | prim i =>
    simp only [Contents.store, Contents.mk.injEq]
    refine ⟨map_range_set (hst.read_cell hs) fun j hj hne ↦ hread _ hj (by simpa using hne),
      hptrs (by simp), ?_⟩
    cases hk : f.type.units with
    | words => simp only [hwords (by simp)]
    | refs => simp only [hrefs hk (by simp)]
  | ptr i =>
    simp only [Contents.store, Contents.mk.injEq]
    refine ⟨hprims (by simp), map_range_set (hst.denoted? hs hp)
      fun j hj hne ↦ hden _ hj (by simpa using hne), ?_⟩
    cases hk : f.type.units with
    | words => simp only [hwords (by simp)]
    | refs => simp only [hrefs hk (by simp)]
  | link => exact absurd rfl hst.notLink
  | unit i =>
    simp only [Contents.store, Contents.mk.injEq]
    refine ⟨hprims (by simp), hptrs (by simp), ?_⟩
    cases hk : f.type.units with
    | words =>
      simp only [Units.store, Units.words.injEq]
      exact map_range_set (hst.read_cell hs) fun j hj hne ↦ hread _ hj (by simpa using hne)
    | refs =>
      simp only [Units.store, Units.refs.injEq]
      exact map_range_set (hst.denoted? hs ⟨hp, hk⟩)
        fun j hj hne ↦ hden _ ⟨hj, hk⟩ (by simpa using hne)

end Stored

/-! ### Letting an object stand for another -/

section Redirected

variable (hs : h.Sound l) (hr : Redirected h l s t h')
include hr

/-- The object has become an indirection to its target. -/
theorem Redirected.memory : h'.memory = h.memory.redirect s.start t.start := by
  rw [hr.heap]
  rfl

/-- The types stay as they are. -/
theorem Redirected.table : h'.table = h.table := by
  rw [hr.heap]
  rfl

/-- The roots stay as they are. -/
theorem Redirected.roots : h'.roots = h.roots := by
  rw [hr.heap]
  rfl

include hs

/-- All other objects are direct as before. -/
theorem Redirected.object_iff {u : Span} : h'.Object l u g ↔ h.Object l u g ∧ u ≠ s := by
  obtain ⟨f, hf, -⟩ := hr.object
  obtain ⟨k, hk, -⟩ := hr.target
  rw [Object, hr.table, hr.memory]
  exact Memory.direct_redirect hs.wellFormed hf hk

/-- What denoted the object denotes the other one now. -/
theorem Redirected.denotes {d : Nat} (hd : h.memory.Denotes h.table l.objects a d) :
    h'.memory.Denotes h'.table l.objects a (if d = s.start then t.start else d) := by
  obtain ⟨f, hf, -⟩ := hr.object
  obtain ⟨k, hk, hkb⟩ := hr.target
  rw [hr.table, hr.memory]
  exact hd.redirect hs.wellFormed hf hk hkb hr.distinct

/-- What was valid stays valid. -/
theorem Redirected.valid_of_valid (hv : h.Valid l a) : h'.Valid l a :=
  (hr.denotes hs hv.denotes).valid

/-- What led to the object leads to its target now, and all else leads where it did. -/
theorem Redirected.resolve (hv : h.Valid l a) : h'.memory.resolve a =
    if h.memory.resolve a = s.start then t.start else h.memory.resolve a :=
  (hr.denotes hs hv.denotes).resolve

/-- All parts hold what they held. -/
theorem Redirected.read_cell {u : Span} (hg : h.Object l u g) {part : Part} (hp : g.Has part) :
    h'.memory.read (g.cell h'.memory u.start part) =
      h.memory.read (g.cell h.memory u.start part) := by
  obtain ⟨f, hf, -⟩ := hr.object
  rw [hr.memory, Memory.cell_redirect hs.wellFormed hf hg]
  exact Memory.read_cell_redirect hs.wellFormed hf hg hp

/-- The heap stays sound when an object is made to stand for another. -/
theorem Redirected.sound : h'.Sound l := by
  obtain ⟨f, hf, hfb⟩ := hr.object
  obtain ⟨k, hk, hkb⟩ := hr.target
  have hw := hs.wellFormed
  have hspaced : h'.Spaced := by
    have hsp := hs.spaced_barred hf.mem (hw.nonempty s hf.mem)
      (Header.forward (Word.ofAddr t.start)).word s.start (some t.start)
    rw [Nat.add_zero] at hsp
    rw [hr.heap]
    exact hsp
  have hmemory := hr.memory
  have htable := hr.table
  have hheap := hr.heap
  rw [hheap] at hspaced ⊢
  apply hs.barred hf.mem hspaced (hw.redirect hf hfb hk hkb hr.distinct)
  · rw [← hmemory, ← htable]
    exact fun a ha ↦ hr.valid_of_valid hs ha
  · rw [← hmemory, ← htable]
    intro u g hg part hp a ha
    have hg := ((hr.object_iff hs).mp hg).1
    rw [hr.read_cell hs hg hp.has] at ha
    exact .inl ⟨hg, ha⟩
  · intro u hu a ha
    by_cases he : u.start = s.start
    · rw [he, Memory.hop?_redirect_self hw hf hk] at ha
      exact .inr ⟨hw.eq_of_start (List.mem_append_right _ hu) hf.mem he, ha⟩
    · rw [Memory.hop?_redirect_of_ne hw hf he] at ha
      exact .inl ha

/-- All other objects look as they did, where the target takes the place of the object. -/
theorem Redirected.view {u : Span} (hg : h.Object l u g) (hgb : ¬ g.IsBlock) (hne : u ≠ s) :
    h'.memory.view h'.table u.start =
      (h.memory.view h.table u.start).map
        (·.map fun d ↦ if d = s.start then t.start else d) := by
  have hg' : h'.memory.Direct h'.table l.objects u g := (hr.object_iff hs).mpr ⟨hg, hne⟩
  rw [hr.table] at hg' ⊢
  apply Memory.view_eq_map _ hg.form? hgb hg'.form? hgb rfl rfl
    (fun part hp _ _ ↦ hr.read_cell hs hg hp)
  intro part hp
  exact hs.wellFormed.denoted?_eq_map hg hp (hr.read_cell hs hg hp.has)
    fun b d hd ↦ (hr.denotes hs hd).resolve

end Redirected

end Heap

end Tenure
