import Tenure.Proofs.Arrangement

/-!
# Twins

If a renaming takes the graph of one heap to that of another, each object of the one has a twin in
the other: a node the node that is its new name, a block the block of the twin of its owner. Main
statement: `Arranged.twins`, when both heaps hold their objects in the order in which a search meets
them, twins lie in the same places.
-/

namespace Tenure

variable {h h' h'' : Heap} {ts ts' : List Span} {s s' t t' : Span} {f g k : Form} {part : Part}
  {φ ψ : Nat → Nat} {a b d e : Nat}

namespace Heap

/-- The renaming `φ` takes the graph that the roots of `h` reach to that of `h'`, and objects of the
two heaps are laid out in one way. The tails need not be, if they are to be moved inline anyway. -/
structure Congruent (φ : Nat → Nat) (h h' : Heap) : Prop extends Renames φ h h' where
  padding : h'.settings.padding = h.settings.padding
  compact : h'.settings.compactTails = h.settings.compactTails
  tail : ∀ d, h.Live d → h.settings.compactTails = false →
    (h'.memory.header (φ d)).tailBits = (h.memory.header d).tailBits

/-- The block at `b` holds the tail of the object at `a`. -/
def Linked (h : Heap) (ts : List Span) (a b : Nat) : Prop :=
  ∃ s f t k, h.memory.Direct h.table ts s f ∧ f.tail = .outOfLine ∧ s.start = a ∧
    h.memory.Direct h.table ts t k ∧ k.IsBlock ∧ k.size = f.size ∧ t.start = b ∧
    h.memory.read (f.cell h.memory s.start .link) = Word.ofAddr t.start

/-- How many words behind the beginning of the active half an address lies. -/
def offset (h : Heap) (a : Nat) : Int := a - h.semispace.active.start

/-- The object at `e` is to `h'` what the one at `d` is to `h`. -/
def Twin (φ : Nat → Nat) (h : Heap) (ts : List Span) (h' : Heap) (ts' : List Span) (d e : Nat) :
    Prop :=
  h.Live d ∧ e = φ d ∨ ∃ a, h.Live a ∧ h.Linked ts a d ∧ h'.Linked ts' (φ a) e

/-! ### Congruent heaps -/

/-- A collection that keeps the graph gives a congruent heap. -/
theorem SameGraph.congruent (hg : SameGraph φ h h') : Congruent φ h h' := by
  refine { hg.renames with
    padding := by rw [hg.settings]
    compact := by rw [hg.settings]
    tail := fun d hd hc ↦ ?_ }
  rcases hg.tail d hd with ht | ⟨hc', -⟩
  · exact ht
  · rw [hc] at hc'
    cases hc'

/-- Two heaps that are congruent to a third one are congruent to one another. -/
theorem Congruent.between (hg : Congruent φ h h') (hg' : Congruent ψ h h'') :
    ∃ χ, Congruent χ h' h'' := by
  obtain ⟨χ, hχ, hbetween⟩ := hg.toRenames.exists_between hg'.toRenames
  refine ⟨χ, { hbetween with
    padding := hg'.padding.trans hg.padding.symm
    compact := hg'.compact.trans hg.compact.symm
    tail := fun e he hc ↦ ?_ }⟩
  obtain ⟨d, hd, rfl⟩ := hg.live_iff.mp he
  rw [hg.compact] at hc
  rw [hχ d hd, hg'.tail d hd hc, hg.tail d hd hc]

/-- Congruence is transitive. -/
theorem Congruent.trans (hg : Congruent φ h h') (hg' : Congruent ψ h' h'') :
    Congruent (ψ ∘ φ) h h'' := by
  refine { hg.toRenames.trans hg'.toRenames with
    padding := hg'.padding.trans hg.padding
    compact := hg'.compact.trans hg.compact
    tail := fun d hd hc ↦ ?_ }
  rw [Function.comp_apply, hg'.tail _ (hg.live hd) (by rw [hg.compact, hc]), hg.tail d hd hc]

private theorem forall₂_filterMap {α β : Type} {R : β → β → Prop} {u v : α → Option β} {xs : List α}
    (h : ∀ x ∈ xs, Option.Rel R (u x) (v x)) :
    List.Forall₂ R (xs.filterMap u) (xs.filterMap v) := by
  induction xs with
  | nil => exact .nil
  | cons x xs ih =>
    have hx := h x List.mem_cons_self
    have hxs := ih fun y hy ↦ h y (List.mem_cons_of_mem x hy)
    rw [List.filterMap_cons, List.filterMap_cons]
    cases hu : u x with
    | none =>
      rw [hu] at hx
      cases hv : v x with
      | none => exact hxs
      | some c => rw [hv] at hx; cases hx
    | some b =>
      rw [hu] at hx
      cases hv : v x with
      | none => rw [hv] at hx; cases hx
      | some c =>
        rw [hv] at hx
        cases hx with
        | some hbc => exact .cons hbc hxs

/-! ### Links -/

section Kept

variable (hk : h.Kept ts)
include hk

private theorem Kept.linked (hf : h.memory.Direct h.table ts s f) (ht : f.tail = .outOfLine) :
    ∃ t k, h.memory.Direct h.table ts t k ∧
      h.memory.read (f.cell h.memory s.start .link) = Word.ofAddr t.start ∧
      h.Linked ts s.start t.start := by
  obtain ⟨t, k, hkt, hl, hb, hz⟩ := hk.wellFormed.block s f hf ht
  exact ⟨t, k, hkt, hl, s, f, t, k, hf, ht, rfl, hkt, hb, hz, rfl, hl⟩

/-- An object has one block. -/
theorem Kept.block_unique (hab : h.Linked ts a b) (hae : h.Linked ts a e) : b = e := by
  have hw := hk.wellFormed
  obtain ⟨s, f, t, k, hf, -, rfl, hkt, -, -, rfl, hl⟩ := hab
  obtain ⟨s', f', t', k', hf', -, he, hkt', -, -, rfl, hl'⟩ := hae
  obtain rfl := hw.eq_of_start hf'.mem hf.mem he
  obtain rfl := hf.unique hf'
  rw [hw.eq_of_ofAddr hkt.mem hkt'.mem (hl.symm.trans hl')]

/-- A block has one owner. -/
theorem Kept.owner_unique (hab : h.Linked ts a b) (hdb : h.Linked ts d b) : a = d := by
  have hw := hk.wellFormed
  obtain ⟨s, f, t, k, hf, ht, rfl, hkt, -, -, rfl, hl⟩ := hab
  obtain ⟨s', f', t', k', hf', ht', rfl, hkt', -, -, he, hl'⟩ := hdb
  rw [he] at hl'
  exact congrArg Span.start (hw.owner s f s' f' hf hf' ht ht' (hl.trans hl'.symm))

/-- A block is no node. -/
theorem Kept.not_live_block (hab : h.Linked ts a b) : ¬ h.Live b := by
  intro hb
  obtain ⟨s, f, t, k, -, -, -, hkt, hkb, -, rfl, -⟩ := hab
  obtain ⟨u, g, hg, hgb, he⟩ := (hk.live _).mp hb
  obtain rfl := hk.wellFormed.eq_of_start hg.mem hkt.mem he
  exact hgb (hg.unique hkt ▸ hkb)

private theorem Kept.refsOf_block (hkt : h.memory.Direct h.table ts t k) (hb : k.IsBlock) :
    h.refsOf t.start = [] := by
  rw [hk.wellFormed.refsOf_eq hkt, List.filterMap_eq_nil_iff]
  intro part hp
  exact absurd hb (hk.wellFormed.not_isBlock_of_isSlot hkt (Form.mem_slotParts.mp hp))

/-- The units of the owner lie in the block. -/
theorem Kept.owner (hl : h.Linked ts a t.start) (hg : h.memory.Direct h.table ts t g) :
    ∃ s f, h.memory.Direct h.table ts s f ∧ ¬ f.IsBlock ∧ s.start = a ∧ g.used = 1 + f.size ∧
      ∀ i, f.cell h.memory s.start (.unit i) = t.start + (1 + i) := by
  have hw := hk.wellFormed
  obtain ⟨s, f, t', k, hf, htail, rfl, hkt, -, -, he, hread⟩ := hl
  obtain ⟨u, k', hu, -, -, hread', hused, hcell⟩ := hw.cell_unit hf htail
  obtain rfl := hw.eq_of_start hkt.mem hg.mem he
  obtain rfl := hw.eq_of_ofAddr hu.mem hkt.mem (hread'.symm.trans hread)
  obtain rfl := hu.unique hg
  exact ⟨s, f, hf, hw.not_isBlock_of_outOfLine hf htail, rfl, hused, hcell⟩

/-- The twin of a node has the new name of the node. -/
theorem Twin.eq_of_not_isBlock (htw : Twin φ h ts h' ts' t.start e)
    (hg : h.memory.Direct h.table ts t g) (hb : ¬ g.IsBlock) : e = φ t.start := by
  rcases htw with ⟨-, he⟩ | ⟨a, -, hl, -⟩
  · exact he
  · exact absurd ((hk.live _).mpr ⟨t, g, hg, hb, rfl⟩) (hk.not_live_block hl)

/-- What a node refers to is a node. -/
theorem Kept.live_of_denoted? (hf : h.memory.Direct h.table ts s f) (hb : ¬ f.IsBlock)
    (hp : f.Refers part) (hd : h.memory.denoted? (f.cell h.memory s.start part) = some d) :
    h.Live d :=
  have hv := Memory.view_of_form? hf.form? hb
  .field ((hk.live _).mpr ⟨s, f, hf, hb, rfl⟩) hv
    ((Memory.mem_references_view hf.form? hb hv).mpr ⟨part, hp, hd⟩)

end Kept

/-! ### Twins -/

section Twins

variable (hk : h.Kept ts) (hk' : h'.Kept ts') (hc : Congruent φ h h')
include hk hk' hc

/-- The twin of a node has the same form. -/
theorem Congruent.node (hf : h.memory.Direct h.table ts s f) (hb : ¬ f.IsBlock) :
    ∃ s', h'.memory.Direct h'.table ts' s' f ∧ s'.start = φ s.start := by
  have hlive : h.Live s.start := (hk.live _).mpr ⟨s, f, hf, hb, rfl⟩
  obtain ⟨s', g, hg, -, he⟩ := (hk'.live _).mp (hc.live hlive)
  have htag := hc.tag _ hlive
  have hsize := hc.size _ hlive
  rw [← he, Memory.tagBits_of_form? hg.form?, Memory.tagBits_of_form? hf.form?] at htag
  rw [← he, Memory.sizeBits_of_form? hg.form?, Memory.sizeBits_of_form? hf.form?] at hsize
  have htype : g.type = f.type := by
    have hgt := (Memory.form?_eq_some_iff.mp hg.form?).2
    rw [hc.table, htag, (Memory.form?_eq_some_iff.mp hf.form?).2] at hgt
    exact (Option.some.inj hgt).symm
  have htail : g.tail = f.tail := by
    cases hcompact : h.settings.compactTails with
    | false =>
      have ht := hc.tail _ hlive hcompact
      rwa [← he, Memory.tailBits_of_form? hg.form?, Memory.tailBits_of_form? hf.form?] at ht
    | true =>
      have hinline : ∀ tail : TailLayout, (tail = .outOfLine → False) → tail = .inline := by
        intro tail ht
        cases tail with
        | inline => rfl
        | outOfLine => exact (ht rfl).elim
      -- Neither heap has kept a block if tails are compacted.
      rw [hinline f.tail fun ht ↦ ?_, hinline g.tail fun ht ↦ ?_]
      · have := hk'.tail _ _ hg ht
        rw [hc.compact, hcompact] at this
        cases this
      · have := hk.tail _ _ hf ht
        rw [hcompact] at this
        cases this
  have hgf : g = f := by
    cases f
    cases g
    simp only at htag hsize htype htail
    subst htag hsize htype htail
    rfl
  exact ⟨s', hgf ▸ hg, he⟩

/-- Twins are of one form. -/
theorem Congruent.forms (htw : Twin φ h ts h' ts' d e) :
    ∃ t t' g, h.memory.Direct h.table ts t g ∧ h'.memory.Direct h'.table ts' t' g ∧
      t.start = d ∧ t'.start = e := by
  rcases htw with ⟨hlive, rfl⟩ | ⟨a, ha, hl, hl'⟩
  · obtain ⟨t, g, hg, hb, rfl⟩ := (hk.live _).mp hlive
    obtain ⟨t', hg', he⟩ := hc.node hk hk' hg hb
    exact ⟨t, t', g, hg, hg', rfl, he⟩
  · obtain ⟨s, f, t, g, hf, htail, rfl, hg, hgb, hgs, rfl, -⟩ := hl
    obtain ⟨s', f', t', k, hf', -, he, hkt, hkb, hks, rfl, -⟩ := hl'
    have hfb := hk.wellFormed.not_isBlock_of_outOfLine hf htail
    obtain ⟨u, hu, heu⟩ := hc.node hk hk' hf hfb
    obtain rfl := hk'.wellFormed.eq_of_start hu.mem hf'.mem (heu.trans he.symm)
    obtain rfl := hu.unique hf'
    obtain rfl : k = g := by
      rw [hk'.wellFormed.eq_of_isBlock hkt hkb, hk.wellFormed.eq_of_isBlock hg hgb, hks, hgs]
    exact ⟨t, t', _, hg, hkt, rfl, rfl⟩

/-- An object has one twin, and is the twin of one object. -/
theorem Congruent.biUnique_twin : Relator.BiUnique (Twin φ h ts h' ts') := by
  constructor
  · rintro d e c (⟨hd, rfl⟩ | ⟨a, ha, hl, hl'⟩) (⟨he, hce⟩ | ⟨b, hb, hm, hm'⟩)
    · exact hc.injective d e hd he hce
    · exact absurd (hc.live hd) (hk'.not_live_block hm')
    · exact absurd (hce ▸ hc.live he) (hk'.not_live_block hl')
    · obtain rfl := hc.injective a b ha hb (hk'.owner_unique hl' hm')
      exact hk.block_unique hl hm
  · rintro d e c (⟨hd, rfl⟩ | ⟨a, ha, hl, hl'⟩) (⟨hd', rfl⟩ | ⟨b, hb, hm, hm'⟩)
    · rfl
    · exact absurd hd (hk.not_live_block hm)
    · exact absurd hd' (hk.not_live_block hl)
    · obtain rfl := hk.owner_unique hl hm
      exact hk'.block_unique hl' hm'

/-! ### Parts of twins -/

section Parts

variable (hf : h.memory.Direct h.table ts s f) (hb : ¬ f.IsBlock)
  (hf' : h'.memory.Direct h'.table ts' s' f) (he : s'.start = φ s.start)
include hf hb hf' he

omit hk' in
/-- A part that is no slot holds the same word in both nodes. -/
theorem Congruent.read_eq (hp : f.Has part) (hs : ¬ f.IsSlot part) :
    h'.memory.read (f.cell h'.memory s'.start part) =
      h.memory.read (f.cell h.memory s.start part) := by
  have hview := hc.view _ ((hk.live _).mpr ⟨s, f, hf, hb, rfl⟩)
  rw [← he, hc.table] at hview
  refine (Memory.parts_of_view_eq_map φ hf.form? hb (hc.table ▸ hf'.form?) hview).1 part hp ?_
    fun hr ↦ hs (.inl hr)
  rintro rfl
  exact hs (.inr ⟨rfl, hp⟩)

/-- Slots in the same place of both nodes refer to twins. -/
theorem Congruent.slot (hp : f.IsSlot part) :
    Option.Rel (Twin φ h ts h' ts')
      (Word.toRef? (h.memory.read (f.cell h.memory s.start part)))
      (Word.toRef? (h'.memory.read (f.cell h'.memory s'.start part))) := by
  have hlive := (hk.live _).mpr ⟨s, f, hf, hb, rfl⟩
  rcases hp with hr | ⟨rfl, ht⟩
  · have hview := hc.view _ hlive
    rw [← he, hc.table] at hview
    have hden :=
      (Memory.parts_of_view_eq_map φ hf.form? hb (hc.table ▸ hf'.form?) hview).2 part hr
    rw [← hk'.denoted?_eq hf' hr, hden, ← hk.denoted?_eq hf hr]
    cases hd : h.memory.denoted? (f.cell h.memory s.start part) with
    | none => exact .none
    | some d => exact .some (.inl ⟨hk.live_of_denoted? hf hb hr hd, rfl⟩)
  · obtain ⟨t, k, hkt, hl, hlink⟩ := hk.linked hf ht
    obtain ⟨t', k', hkt', hl', hlink'⟩ := hk'.linked hf' ht
    rw [hl, hl', hk.wellFormed.toRef?_ofAddr (.of_mem hkt.mem),
      hk'.wellFormed.toRef?_ofAddr (.of_mem hkt'.mem)]
    exact .some (.inr ⟨s.start, hlive, hlink, he ▸ hlink'⟩)

end Parts

/-- The slots of twins refer to twins. -/
theorem Congruent.refsOf (htw : Twin φ h ts h' ts' d e) :
    List.Forall₂ (Twin φ h ts h' ts') (h.refsOf d) (h'.refsOf e) := by
  obtain ⟨t, t', g, hg, hg', rfl, rfl⟩ := hc.forms hk hk' htw
  by_cases hb : g.IsBlock
  · rw [hk.refsOf_block hg hb, hk'.refsOf_block hg' hb]
    exact .nil
  · have he := htw.eq_of_not_isBlock hk hg hb
    rw [hk.wellFormed.refsOf_eq hg, hk'.wellFormed.refsOf_eq hg']
    exact forall₂_filterMap fun part hp ↦ hc.slot hk hk' hg hb hg' he (Form.mem_slotParts.mp hp)

/-- Roots in the same place refer to twins. -/
theorem Congruent.forall₂_roots :
    List.Forall₂ (Twin φ h ts h' ts') h.roots.toList h'.roots.toList := by
  have hroots := hc.roots
  rw [List.map_congr_left fun a ha ↦ hk.resolve (hk.roots a ha),
    List.map_congr_left fun a ha ↦ hk'.resolve (hk'.roots a ha), List.map_id',
    List.map_id'] at hroots
  rw [hroots, List.forall₂_map_right_iff, List.forall₂_same]
  exact fun a ha ↦ .inl ⟨hk.resolve (hk.roots a ha) ▸ .root ha, rfl⟩

end Twins

end Heap

/-! ### Places of twins -/

/-- Spans of the same lengths that tile two ranges lie at the same distances from their
beginnings. -/
theorem Tiles.forall₂ {R : Span → Span → Prop} {a b a' b' : Nat} (h : Tiles ts a b)
    (h' : Tiles ts' a' b') (hR : List.Forall₂ R ts ts')
    (hw : ∀ t t', R t t' → t'.words = t.words) :
    b + a' = b' + a ∧ List.Forall₂ (fun t t' ↦ R t t' ∧ t.start + a' = t'.start + a) ts ts' := by
  induction hR generalizing a a' with
  | nil =>
    obtain rfl : a = b := h
    obtain rfl : a' = b' := h'
    exact ⟨Nat.add_comm _ _, .nil⟩
  | @cons t t' ts ts' ht _ ih =>
    obtain ⟨rfl, -, hts⟩ := h
    obtain ⟨rfl, -, hts'⟩ := h'
    obtain ⟨hb, hrest⟩ := ih hts hts'
    have hlength := hw t t' ht
    simp only [Span.stop] at hb hrest
    refine ⟨by omega, .cons ⟨ht, Nat.add_comm _ _⟩ (hrest.imp ?_)⟩
    rintro u u' ⟨hu, he⟩
    exact ⟨hu, by omega⟩

/-- Each element of a list has a partner in a list related to it. -/
theorem exists_of_forall₂_of_mem {α β : Type} {R : α → β → Prop} {xs : List α} {ys : List β}
    {x : α} (h : List.Forall₂ R xs ys) (hx : x ∈ xs) : ∃ y ∈ ys, R x y := by
  induction h with
  | nil => cases hx
  | cons hxy _ ih =>
    rcases List.mem_cons.mp hx with rfl | hx
    · exact ⟨_, List.mem_cons_self, hxy⟩
    · obtain ⟨y, hy, h⟩ := ih hx
      exact ⟨y, List.mem_cons_of_mem _ hy, h⟩

namespace Heap

/-- The objects at `t` and `t'` are twins and lie in the same place of the active halves. -/
structure Aligned (φ : Nat → Nat) (h : Heap) (ts : List Span) (h' : Heap) (ts' : List Span)
    (t t' : Span) : Prop where
  twin : Twin φ h ts h' ts' t.start t'.start
  words : t'.words = t.words
  offset : h'.offset t'.start = h.offset t.start

section Arranged

variable (hA : h.Arranged ts) (hA' : h'.Arranged ts') (hc : Congruent φ h h')
include hA hA' hc

/-- Twins lie in the same places, and the active halves are full to the same word. -/
theorem Arranged.twins : h'.semispace.active.cursor = h.semispace.active.cursor ∧
    List.Forall₂ (Aligned φ h ts h' ts') ts ts' := by
  have hk := hA.kept
  have hk' := hA'.kept
  have hfound := hA.search.forall₂ hA'.search (hc.biUnique_twin hk hk') (hc.forall₂_roots hk hk')
    fun d e hde ↦ hc.refsOf hk hk' hde
  rw [List.forall₂_map_left_iff, List.forall₂_map_right_iff, List.forall₂_iff_zip] at hfound
  have hwords : List.Forall₂ (fun t t' ↦ Twin φ h ts h' ts' t.start t'.start ∧ t'.words = t.words)
      ts ts' := by
    refine List.forall₂_iff_zip.mpr ⟨hfound.1, fun {t t'} hz ↦ ⟨hfound.2 hz, ?_⟩⟩
    obtain ⟨ht, ht'⟩ := List.of_mem_zip hz
    obtain ⟨u, u', g, hg, hg', he, he'⟩ := hc.forms hk hk' (hfound.2 hz)
    obtain rfl := hk.wellFormed.eq_of_start hg.mem ht he
    obtain rfl := hk'.wellFormed.eq_of_start hg'.mem ht' he'
    rw [hk.wellFormed.extent u g hg, hk'.wellFormed.extent u' g hg', hc.padding]
  obtain ⟨hcursor, hplaces⟩ := hk.tiles.forall₂ hk'.tiles hwords fun _ _ h ↦ h.2
  refine ⟨by omega, hplaces.imp fun t t' ⟨⟨htw, hw⟩, he⟩ ↦ ⟨htw, hw, ?_⟩⟩
  rw [offset, offset]
  omega

/-- Twins lie in the same places. -/
theorem Arranged.offset_eq (htw : Twin φ h ts h' ts' d e) : h'.offset e = h.offset d := by
  obtain ⟨t, -, g, hg, -, rfl, -⟩ := hc.forms hA.kept hA'.kept htw
  obtain ⟨t', -, ht'⟩ := exists_of_forall₂_of_mem (hA.twins hA' hc).2 hg.mem
  rw [(hc.biUnique_twin hA.kept hA'.kept).2 htw ht'.twin, ht'.offset]

end Arranged

end Heap

end Tenure
