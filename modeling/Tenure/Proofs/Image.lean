import Tenure.Proofs.Census
import Tenure.Proofs.Twins

/-!
# Images of the active half

The image of a heap tells the words in use of the active half and the roots, where a reference is
told by how far from the beginning of the half it leads. Main statement: `Arranged.image_eq`, when
the objects lie in the order in which a search meets them, the image is settled by the graph that
the roots reach.
-/

namespace Tenure

/-- A word of an image. -/
inductive ImageWord
  /-- A header, a plain word or a null reference, as it is stored. -/
  | plain (w : Word)
  /-- A reference, by the distance in words. -/
  | reference (offset : Int)
  deriving DecidableEq, Repr

/-- What the active half and the root stack hold, without addresses. -/
structure Image where
  words : List ImageWord
  roots : List Int
  deriving DecidableEq, Repr

variable {h h' : Heap} {ts ts' : List Span} {s s' t t' : Span} {f g : Form} {part : Part}
  {φ : Nat → Nat} {p : Nat}

namespace Heap

/-- The slots of the objects in the active half. -/
def slotsInUse (h : Heap) : List Nat :=
  (h.spansFrom h.semispace.active 0).flatMap fun s ↦
    match h.memory.slots h.table s.start with
    | .error _ => []
    | .ok slots => slots.list h.memory

/-- A slot as an image shows it. -/
def imageSlot (h : Heap) (w : Word) : ImageWord :=
  match Word.toRef? w with
  | none => .plain w
  | some a => .reference (h.offset a)

/-- The word at `p` as an image shows it. -/
def imageWord (h : Heap) (p : Nat) : ImageWord :=
  if p ∈ h.slotsInUse then h.imageSlot (h.memory.read p) else .plain (h.memory.read p)

/-- The image of the active half. -/
def image (h : Heap) : Image where
  words := (List.range h.semispace.active.cursor).map fun i ↦
    h.imageWord (h.semispace.active.start + i)
  roots := h.roots.toList.map h.offset

/-! ### Slots in use -/

section Kept

variable (hk : h.Kept ts)
include hk

private theorem Kept.spansFrom_eq : h.spansFrom h.semispace.active 0 = ts := by
  have := h.semispace.active.cursor_le
  refine hk.tiles.spans_eq (by omega) fun t ht ↦ ?_
  obtain ⟨g, hg⟩ := hk.direct t ht
  rw [Memory.extent_of_form? _ hg.form?, hk.wellFormed.extent t g hg]

private theorem Kept.mem_slotsInUse : p ∈ h.slotsInUse ↔
    ∃ t g part, h.memory.Direct h.table ts t g ∧ g.IsSlot part ∧
      p = g.cell h.memory t.start part := by
  have hw := hk.wellFormed
  rw [slotsInUse, hk.spansFrom_eq, List.mem_flatMap]
  constructor
  · rintro ⟨t, ht, hp⟩
    obtain ⟨g, hg⟩ := hk.direct t ht
    rw [Memory.slots_of_form? hg.form?] at hp
    obtain ⟨part, hslot, he⟩ := hw.mem_slots hg hp
    exact ⟨t, g, part, hg, hslot, he⟩
  · rintro ⟨t, g, part, hg, hslot, he⟩
    refine ⟨t, hg.mem, ?_⟩
    rw [Memory.slots_of_form? hg.form?]
    refine (Form.mem_list_slots fun ht ↦ ?_).mpr ⟨part, hslot, he⟩
    obtain ⟨b, k, hkb, hl, -⟩ := hw.block t g hg ht
    rw [hl]
    exact (hw.mapped_start hkb.mem).ofAddr_ne_null

/-- A word of the half that is no part of an object is no slot. -/
theorem Kept.imageWord_of_forall_ne
    (hp : ∀ t g part, h.memory.Direct h.table ts t g → g.Has part →
      g.cell h.memory t.start part ≠ p) : h.imageWord p = .plain (h.memory.read p) := by
  refine if_neg fun hm ↦ ?_
  obtain ⟨t, g, part, hg, hslot, he⟩ := hk.mem_slotsInUse.mp hm
  exact hp t g part hg hslot.has he.symm

/-- A part of a node is a slot if it is one for the node. -/
theorem Kept.mem_slotsInUse_cell (hf : h.memory.Direct h.table ts s f) (hb : ¬ f.IsBlock)
    (hp : f.Has part) : f.cell h.memory s.start part ∈ h.slotsInUse ↔ f.IsSlot part := by
  rw [hk.mem_slotsInUse]
  constructor
  · rintro ⟨t, g, part', hg, hslot, he⟩
    have hgb := hk.wellFormed.not_isBlock_of_isSlot hg hslot
    obtain ⟨rfl, rfl⟩ := hk.wellFormed.cell_inj hf hg hb hgb hp hslot.has he
    rwa [hf.unique hg]
  · exact fun hslot ↦ ⟨s, f, part, hf, hslot, rfl⟩

end Kept

/-! ### Words of twins -/

section Arranged

variable (hA : h.Arranged ts) (hA' : h'.Arranged ts') (hc : Congruent φ h h')
include hA hA' hc

/-- A part of a node looks like that part of its twin. -/
theorem Arranged.imageWord_cell (hf : h.memory.Direct h.table ts s f) (hb : ¬ f.IsBlock)
    (hf' : h'.memory.Direct h'.table ts' s' f) (he : s'.start = φ s.start) (hp : f.Has part) :
    h'.imageWord (f.cell h'.memory s'.start part) = h.imageWord (f.cell h.memory s.start part) := by
  have hk := hA.kept
  have hk' := hA'.kept
  have hm := hk.mem_slotsInUse_cell hf hb hp
  have hm' := hk'.mem_slotsInUse_cell hf' hb hp
  rw [imageWord, imageWord]
  by_cases hslot : f.IsSlot part
  · rw [if_pos (hm.mpr hslot), if_pos (hm'.mpr hslot), imageSlot, imageSlot]
    have hrel := hc.slot hk hk' hf hb hf' he hslot
    cases hd : Word.toRef? (h.memory.read (f.cell h.memory s.start part)) with
    | none =>
      rw [hd] at hrel
      cases hd' : Word.toRef? (h'.memory.read (f.cell h'.memory s'.start part)) with
      | none => simp only [Word.eq_null_of_toRef? hd, Word.eq_null_of_toRef? hd']
      | some e => rw [hd'] at hrel; cases hrel
    | some d =>
      rw [hd] at hrel
      cases hd' : Word.toRef? (h'.memory.read (f.cell h'.memory s'.start part)) with
      | none => rw [hd'] at hrel; cases hrel
      | some e =>
        rw [hd'] at hrel
        cases hrel with
        | some htw => simp only [hA.offset_eq hA' hc htw]
  · rw [if_neg (mt hm.mp hslot), if_neg (mt hm'.mp hslot), hc.read_eq hk hf hb hf' he hp hslot]

/-- A used word of an object looks like that word of its twin. -/
theorem Arranged.imageWord_used {j : Nat} (htw : Twin φ h ts h' ts' t.start t'.start)
    (hg : h.memory.Direct h.table ts t g) (hg' : h'.memory.Direct h'.table ts' t' g)
    (h₀ : 0 < j) (hj : j < g.used) :
    h'.imageWord (t'.start + j) = h.imageWord (t.start + j) := by
  have hk := hA.kept
  have hk' := hA'.kept
  by_cases hb : g.IsBlock
  · -- The words of a block are the units of its owner.
    rcases htw with ⟨hlive, -⟩ | ⟨a, ha, hl, hl'⟩
    · obtain ⟨u, k, hu, hkb, he⟩ := (hk.live _).mp hlive
      obtain rfl := hk.wellFormed.eq_of_start hu.mem hg.mem he
      exact absurd (hu.unique hg ▸ hb) hkb
    · obtain ⟨s, f, hf, hfb, rfl, hused, hcell⟩ := hk.owner hl hg
      obtain ⟨s', f', hf', -, he, -, hcell'⟩ := hk'.owner hl' hg'
      obtain ⟨u, hu, heu⟩ := hc.node hk hk' hf hfb
      obtain rfl := hk'.wellFormed.eq_of_start hu.mem hf'.mem (heu.trans he.symm)
      obtain rfl := hu.unique hf'
      obtain ⟨i, rfl⟩ : ∃ i, j = 1 + i := ⟨j - 1, by omega⟩
      have hi : i < f.size := by omega
      rw [← hcell, ← hcell']
      exact hA.imageWord_cell hA' hc hf hfb hf' he (show f.Has (.unit i) from hi)
  · obtain ⟨part, hp, hown, rfl⟩ := Form.exists_index_eq h₀ hj
    rw [← Form.cell_eq_of_own hown, ← Form.cell_eq_of_own hown]
    exact hA.imageWord_cell hA' hc hg hb hg' (htw.eq_of_not_isBlock hk hg hb) hp

/-- The words of twins look the same. -/
theorem Arranged.imageWord_eq {j : Nat} (ht : t ∈ ts) (ht' : t' ∈ ts')
    (htw : Twin φ h ts h' ts' t.start t'.start) (hj : j < t.words) (hj' : j < t'.words) :
    h'.imageWord (t'.start + j) = h.imageWord (t.start + j) := by
  have hk := hA.kept
  have hk' := hA'.kept
  obtain ⟨u, u', g, hg, hg', he, he'⟩ := hc.forms hk hk' htw
  obtain rfl := hk.wellFormed.eq_of_start hg.mem ht he
  obtain rfl := hk'.wellFormed.eq_of_start hg'.mem ht' he'
  rcases Nat.eq_zero_or_pos j with rfl | h₀
  · rw [Nat.add_zero, Nat.add_zero,
      hk.imageWord_of_forall_ne fun _ _ _ hf hp ↦ hk.wellFormed.cell_ne_start hf hp ht,
      hk'.imageWord_of_forall_ne fun _ _ _ hf hp ↦ hk'.wellFormed.cell_ne_start hf hp ht',
      Memory.read_of_form? hg.form?, Memory.read_of_form? hg'.form?]
  · by_cases hu : j < g.used
    · exact hA.imageWord_used hA' hc htw hg hg' h₀ hu
    · have hle := Nat.le_of_not_lt hu
      rw [hk.imageWord_of_forall_ne fun _ _ _ hf hp ↦ hk.wellFormed.cell_ne_blank hf hp hg hle hj,
        hk'.imageWord_of_forall_ne fun _ _ _ hf hp ↦
          hk'.wellFormed.cell_ne_blank hf hp hg' hle hj',
        hk.wellFormed.blank _ g hg j hle hj, hk'.wellFormed.blank _ g hg' j hle hj']

/-- Two heaps with congruent graphs, which hold nothing else and hold it in the order in which a
search meets it, have the same image. -/
theorem Arranged.image_eq : h'.image = h.image := by
  have hk := hA.kept
  have hk' := hA'.kept
  obtain ⟨hcursor, htwins⟩ := hA.twins hA' hc
  have hwords : ∀ i ∈ List.range h.semispace.active.cursor,
      h'.imageWord (h'.semispace.active.start + i) =
        h.imageWord (h.semispace.active.start + i) := by
    intro i hi
    have hlt := List.mem_range.mp hi
    obtain ⟨t, ht, j, hj, hp⟩ := hk.tiles.exists_mem (p := h.semispace.active.start + i)
      (by omega) (by omega)
    obtain ⟨t', ht', hal⟩ := exists_of_forall₂_of_mem htwins ht
    have hplace := hal.offset
    have hp' : h'.semispace.active.start + i = t'.start + j := by
      rw [offset, offset] at hplace
      omega
    rw [hp, hp']
    exact hA.imageWord_eq hA' hc ht ht' hal.twin hj (by rw [hal.words]; exact hj)
  have hroots : h'.roots.toList.map h'.offset = h.roots.toList.map h.offset := by
    have hall := (hc.forall₂_roots hk hk').imp fun _ _ htw ↦ (hA.offset_eq hA' hc htw).symm
    rw [← List.forall₂_eq_eq_eq, List.forall₂_map_left_iff, List.forall₂_map_right_iff]
    exact hall.flip.imp fun _ _ ↦ Eq.symm
  rw [image, image, hcursor, List.map_congr_left hwords, hroots]

end Arranged

end Heap

end Tenure
