import Mathlib.Algebra.BigOperators.Finprod
import Tenure.Proofs.Extents
import Tenure.Proofs.Scavenge

/-!
# What survives a scavenge

A scavenge comes across the objects that the roots reach and their blocks, and across nothing else,
so it leaves just these in use. How many words they need can be told from the graph alone, as it
depends on the types and sizes of the nodes only. Main statements: `Scavenged.kept`, what a scavenge
leaves is a node of the graph or the block of one; `Scavenged.cursor_eq`, it leaves as many words in
use as the live objects need.
-/

namespace Tenure.Heap

/-- The words that a collection needs for the object at `d`. -/
def copyWords (h : Heap) (d : Nat) : Nat :=
  match h.table.get? (h.memory.header d).tagBits with
  | none => 0
  | some type =>
    let size := (h.memory.header d).sizeBits
    if (h.memory.header d).tailBits = .inline ∨ h.settings.compactTails then
      padded h.settings.padding (1 + type.fields + size)
    else
      type.words size .outOfLine h.settings.padding +
        TypeInfo.tailBlock.words size .inline h.settings.padding

/-- The words that a collection needs for all objects that the roots reach. -/
noncomputable def liveWords (h : Heap) : Nat := ∑ᶠ d ∈ {d | h.Live d}, h.copyWords d

/-- The facts that make a heap packed, in terms of forms. -/
structure Kept (h : Heap) (ts : List Span) : Prop where
  wellFormed : h.memory.WellFormed h.table h.settings.padding ts
  tiles : Tiles ts h.semispace.active.start
    (h.semispace.active.start + h.semispace.active.cursor)
  direct : ∀ t ∈ ts, ∃ g, h.memory.Direct h.table ts t g
  live : ∀ d, h.Live d ↔ ∃ t g, h.memory.Direct h.table ts t g ∧ ¬ g.IsBlock ∧ t.start = d
  block : ∀ t g, h.memory.Direct h.table ts t g → g.IsBlock →
    ∃ s f, h.memory.Direct h.table ts s f ∧ ¬ f.IsBlock ∧ f.tail = .outOfLine ∧
      h.memory.read (f.cell h.memory s.start .link) = Word.ofAddr t.start
  tail : ∀ t g, h.memory.Direct h.table ts t g → g.tail = .outOfLine →
    h.settings.compactTails = false
  roots : ∀ a ∈ h.roots.toList, IsObject ts a

/-- The spans `ts` are of direct objects, with each object there is its block, and with each block
its owner. Tails that are to be moved inline lie there. -/
structure Closed (h : Heap) (os ts : List Span) : Prop where
  nodup : ts.Nodup
  direct : ∀ t ∈ ts, ∃ g, h.memory.Direct h.table os t g
  block : ∀ t ∈ ts, ∀ g, h.memory.Direct h.table os t g → g.IsBlock →
    ∃ s ∈ ts, ∃ f, h.memory.Direct h.table os s f ∧ ¬ f.IsBlock ∧ f.tail = .outOfLine ∧
      h.memory.read (f.cell h.memory s.start .link) = Word.ofAddr t.start
  owned : ∀ s ∈ ts, ∀ f, h.memory.Direct h.table os s f → f.tail = .outOfLine → ∀ t ∈ os,
    h.memory.read (f.cell h.memory s.start .link) = Word.ofAddr t.start → t ∈ ts
  tail : ∀ t ∈ ts, ∀ g, h.memory.Direct h.table os t g → g.tail = .outOfLine →
    h.settings.compactTails = false

/-- The spans that do not begin with the header of a block. -/
def nodesOf (h : Heap) (ts : List Span) : List Span :=
  ts.filter fun t ↦ (h.memory.header t.start).tagBits ≠ blockTag

variable {h h' : Heap} {l : Census} {os ts : List Span} {cs : Copies} {m : Memory} {s t : Span}
  {f g : Form} {φ : Nat → Nat} {d : Nat}

/-! ### The words of the live objects -/

/-- There are finitely many live objects. -/
theorem Live.finite (hs : h.Sound l) : {d | h.Live d}.Finite := by
  refine (l.objects.map Span.start).finite_toSet.subset fun d hd ↦ ?_
  obtain ⟨s, f, hf, rfl, -⟩ := Live.object hs hd
  exact List.mem_map_of_mem hf.mem

/-- A sum over a set of addresses that a list names. -/
theorem finsum_mem_eq_sum {S : Set Nat} {ds : List Nat} (w : Nat → Nat) (hn : ds.Nodup)
    (hs : ∀ d, d ∈ S ↔ d ∈ ds) : ∑ᶠ d ∈ S, w d = (ds.map w).sum := by
  have hset : S = ↑ds.toFinset := by
    ext d
    rw [hs d, List.coe_toFinset, Set.mem_ofPred_eq]
  rw [hset, finsum_mem_coe_finset, List.sum_toFinset _ hn]

/-- The words that an object needs can be told from its header, where a tail may have moved
inline. -/
theorem copyWords_congr {e : Nat} (ht : h'.table = h.table) (hset : h'.settings = h.settings)
    (htag : (h'.memory.header e).tagBits = (h.memory.header d).tagBits)
    (hsize : (h'.memory.header e).sizeBits = (h.memory.header d).sizeBits)
    (htail : (h'.memory.header e).tailBits = (h.memory.header d).tailBits ∨
      h.settings.compactTails = true ∧ (h'.memory.header e).tailBits = .inline) :
    h'.copyWords e = h.copyWords d := by
  simp only [copyWords, ht, hset, htag, hsize]
  rcases htail with htail | ⟨hc, hi⟩
  · rw [htail]
  · simp only [hc, hi, or_true, if_true]

/-- The words that an object needs do not depend on where it is. -/
theorem SameGraph.copyWords_eq (hg : SameGraph φ h h') (hd : h.Live d) :
    h'.copyWords (φ d) = h.copyWords d :=
  copyWords_congr hg.table hg.settings (hg.tag d hd) (hg.size d hd)
    ((hg.tail d hd).imp id fun ⟨hc, _, hi⟩ ↦ ⟨hc, hi⟩)

/-- What the nodes add up to does not depend on their names. -/
theorem SameGraph.finsum_eq {c c' : Nat → Nat} (hg : SameGraph φ h h')
    (hc : ∀ d, h.Live d → c' (φ d) = c d) :
    ∑ᶠ e ∈ {e | h'.Live e}, c' e = ∑ᶠ d ∈ {d | h.Live d}, c d := by
  refine (finsum_mem_eq_of_bijOn φ ⟨fun d hd ↦ hg.live hd, fun d hd e he ↦ hg.injective d e hd he,
    fun e he ↦ ?_⟩ fun d hd ↦ (hc d hd).symm).symm
  exact hg.live_iff.mp he

/-- A collection does not change the number of words that the live objects need. -/
theorem SameGraph.liveWords_eq (hg : SameGraph φ h h') : h'.liveWords = h.liveWords :=
  hg.finsum_eq fun _ hd ↦ hg.copyWords_eq hd

/-- An object needs the words that it takes up, unless its tail is to be moved inline. -/
theorem copyWords_of_form? (hf : h.memory.form? h.table d = some f)
    (ht : f.tail = .outOfLine → h.settings.compactTails = false) :
    h.copyWords d = (f.footprint h.settings.padding).words := by
  simp only [copyWords, Memory.tagBits_of_form? hf, Memory.sizeBits_of_form? hf,
    Memory.tailBits_of_form? hf, (Memory.form?_eq_some_iff.mp hf).2]
  cases htl : f.tail with
  | inline =>
    simp only [true_or, if_true, Form.footprint, Footprint.words, htl, Form.words_eq, Form.used,
      Nat.add_zero]
  | outOfLine =>
    rw [Memory.words_footprint _ htl]
    simp only [ht htl, reduceCtorEq, Bool.false_eq_true, or_self, if_false, Form.words, Form.block,
      htl]

section Closed

variable (hw : h.memory.WellFormed h.table h.settings.padding os) (hc : h.Closed os ts)
include hw hc

omit hw in
/-- The nodes are the objects that are no blocks. -/
theorem Closed.mem_nodes : t ∈ h.nodesOf ts ↔
    t ∈ ts ∧ ∃ g, h.memory.Direct h.table os t g ∧ ¬ g.IsBlock := by
  simp only [nodesOf, List.mem_filter, decide_eq_true_eq]
  refine and_congr_right fun ht ↦ ?_
  constructor
  · intro hb
    obtain ⟨g, hg⟩ := hc.direct t ht
    rw [Memory.tagBits_of_form? hg.form?] at hb
    exact ⟨g, hg, hb⟩
  · rintro ⟨g, hg, hb⟩
    rwa [Memory.tagBits_of_form? hg.form?]

/-- What the nodes take up is all there is, in another order. -/
theorem Closed.perm :
    ((h.nodesOf ts).flatMap (h.memory.spansOf h.table h.settings.padding)).Perm ts := by
  refine (List.perm_ext_iff_of_nodup (hw.nodup_flatMap_spansOf (hc.nodup.filter _)
    fun s hs ↦ (hc.mem_nodes.mp hs).2) hc.nodup).mpr fun t ↦ ⟨fun ht ↦ ?_, fun ht ↦ ?_⟩
  · obtain ⟨s, hs, ht⟩ := List.mem_flatMap.mp ht
    obtain ⟨hm, f, hf, -⟩ := hc.mem_nodes.mp hs
    rcases hw.mem_spansOf hf ht with rfl | ⟨hft, hb, hl⟩
    · exact hm
    · exact hc.owned s hm f hf hft t hb.mem hl
  · obtain ⟨g, hg⟩ := hc.direct t ht
    by_cases hb : g.IsBlock
    · obtain ⟨s, hm, f, hf, hfb, hft, hl⟩ := hc.block t ht g hg hb
      refine List.mem_flatMap.mpr ⟨s, hc.mem_nodes.mpr ⟨hm, f, hf, hfb⟩, ?_⟩
      obtain ⟨b, hb, hl', he⟩ := hw.spansOf_outOfLine hf hft
      have hbt : b = t := hw.eq_of_ofAddr hb.mem hg.mem (hl'.symm.trans hl)
      rw [he, hbt]
      exact List.mem_cons_of_mem _ (List.mem_singleton_self t)
    · exact List.mem_flatMap.mpr ⟨t, hc.mem_nodes.mpr ⟨ht, g, hg, hb⟩, List.mem_cons_self⟩

/-- The nodes need as many words as there are. -/
theorem Closed.total_eq : Span.total ts = ((h.nodesOf ts).map fun t ↦ h.copyWords t.start).sum := by
  rw [← Span.total_perm (hc.perm hw), Span.total_flatMap]
  refine congrArg List.sum (List.map_congr_left fun t ht ↦ ?_)
  obtain ⟨hm, g, hg, -⟩ := hc.mem_nodes.mp ht
  rw [hw.total_spansOf hg, copyWords_of_form? hg.form? (hc.tail t hm g hg)]

end Closed

section Kept

variable (hk : h.Kept ts)
include hk

/-- What is kept is closed under references. -/
theorem Kept.closed : h.Closed ts ts where
  nodup := hk.tiles.nodup
  direct := hk.direct
  block := by
    intro t _ g hg hb
    obtain ⟨s, f, hf, h⟩ := hk.block t g hg hb
    exact ⟨s, hf.mem, f, hf, h⟩
  owned := fun _ _ _ _ _ _ ht _ ↦ ht
  tail := fun t _ g hg ↦ hk.tail t g hg

/-- What the nodes add up to can be told from the graph. -/
theorem Kept.sum_nodes (c : Nat → Nat) :
    ((h.nodesOf ts).map fun t ↦ c t.start).sum = ∑ᶠ d ∈ {d | h.Live d}, c d := by
  have hn : ((h.nodesOf ts).map Span.start).Nodup := by
    refine (hk.tiles.nodup.filter _).map_on fun s hs t ht he ↦ ?_
    exact hk.wellFormed.eq_of_start (List.mem_of_mem_filter hs) (List.mem_of_mem_filter ht) he
  have hlive : ∀ d, d ∈ {d | h.Live d} ↔ d ∈ (h.nodesOf ts).map Span.start := by
    intro d
    rw [Set.mem_ofPred_eq, hk.live, List.mem_map]
    constructor
    · rintro ⟨t, g, hg, hb, rfl⟩
      exact ⟨t, hk.closed.mem_nodes.mpr ⟨hg.mem, g, hg, hb⟩, rfl⟩
    · rintro ⟨t, ht, rfl⟩
      obtain ⟨-, g, hg, hb⟩ := hk.closed.mem_nodes.mp ht
      exact ⟨t, g, hg, hb, rfl⟩
  rw [finsum_mem_eq_sum c hn hlive, List.map_map]
  rfl

/-- The used words are those that the live objects need. -/
theorem Kept.cursor_eq : h.semispace.active.cursor = h.liveWords := by
  have htotal := hk.closed.total_eq hk.wellFormed
  have := hk.tiles.add_total
  rw [liveWords, ← hk.sum_nodes]
  omega

end Kept

/-! ### What a scavenge comes across -/

/-- The object at `d` is a node of the graph, or the block of a node that is to keep it. -/
def Survives (h : Heap) (l : Census) (d : Nat) : Prop :=
  h.Live d ∨ h.settings.compactTails = false ∧ ∃ s f, h.Object l s f ∧ h.Live s.start ∧
    f.tail = .outOfLine ∧ h.memory.read (f.cell h.memory s.start .link) = Word.ofAddr d

private theorem Survives.live (hs : h.Sound l) (hd : h.Survives l s.start) (hf : h.Object l s f)
    (hb : ¬ f.IsBlock) : h.Live s.start := by
  have hw := hs.wellFormed
  rcases hd with hlive | ⟨-, s', f', hf', -, ht, hl⟩
  · exact hlive
  · obtain ⟨b, k, hk, hlk, hkb, -⟩ := hw.block s' f' hf' ht
    have hbs : b = s := hw.eq_of_ofAddr hk.mem hf.mem (hlk.symm.trans hl)
    subst hbs
    exact absurd (hk.unique hf ▸ hkb) hb

private theorem Survives.owner (hs : h.Sound l) (hd : h.Survives l s.start) (hf : h.Object l s f)
    (hb : f.IsBlock) : h.settings.compactTails = false ∧ ∃ s' f', h.Object l s' f' ∧
      h.Live s'.start ∧ f'.tail = .outOfLine ∧
      h.memory.read (f'.cell h.memory s'.start .link) = Word.ofAddr s.start := by
  rcases hd with hlive | howner
  · obtain ⟨t, g, hg, he, hgb⟩ := hlive.object hs
    have hts : t = s := hs.wellFormed.eq_of_start hg.mem hf.mem he
    subst hts
    exact absurd (hg.unique hf ▸ hb) hgb
  · exact howner

section Scavenge

variable (hs : h.Sound { old := os })
include hs

/-- A scavenge comes across nothing but nodes of the graph and the blocks of those. -/
theorem Sound.survives_of_due (hd : (h.scavengeOrigin os).Due d) :
    h.Survives { old := os } d := by
  have hw := hs.wellFormed
  induction hd with
  | @start a d ha hl =>
    left
    rw [← hl.resolve]
    exact .root ha
  | @slot s f part a d _ hf hp hout hr hl ih =>
    have hf := object_scavengeOrigin.mp hf
    have hl : h.memory.Leads a d := hl
    have hr : Word.toRef? (h.memory.read (f.cell h.memory s.start part)) = some a := hr
    rcases hp with hp | ⟨rfl, ht⟩
    · left
      have hb : ¬ f.IsBlock := fun hb ↦ hf.not_refers_of_isBlock hb hp
      have hlive := ih.live hs hf hb
      obtain ⟨c, hc⟩ := hlive.view_isSome hs
      refine .field hlive hc ((Memory.mem_references_view hf.form? hb hc).mpr ⟨part, hp, ?_⟩)
      rw [Memory.denoted?, hr, Option.map_some, hl.resolve]
    · right
      have hb := hw.not_isBlock_of_outOfLine hf ht
      obtain ⟨b, k, hk, hlk, -⟩ := hw.block s f hf ht
      rw [hlk, hw.toRef?_ofAddr (.of_mem hk.mem)] at hr
      cases hr
      obtain rfl := (Memory.Leads.here hk.hop?).unique hl
      refine ⟨?_, s, f, hf, ih.live hs hf hb, ht, hlk⟩
      rcases hout with hout | hshape
      · cases hout
      · exact (Evacuation.tail_shape_eq_outOfLine_iff.mp hshape.has).2

variable (hp : Scavenged h os cs m h')
include hp

-- Nothing was in the target before, so all that is there are copies.
private theorem Scavenged.direct_iff :
    h'.memory.Direct h'.table ((h.scavengeOrigin os).arrived cs) t g ↔
      ∃ s f, (s, t) ∈ cs ∧ h.Object { old := os } s f ∧ (h.scavengeOrigin os).pass.shape f = g := by
  rw [hp.table]
  refine (hp.pass.direct_iff hs.scavengeOrigin hp.swept).trans ⟨?_, ?_⟩
  · rintro ⟨s, f, hst⟩
    cases hst with
    | stays hout => cases hout
    | copied hc hf =>
      exact ⟨s, f, hc, object_scavengeOrigin.mp hf, rfl⟩
  · rintro ⟨s, f, hc, hf, rfl⟩
    exact ⟨s, f, .copied hc (object_scavengeOrigin.mpr hf)⟩

private theorem Scavenged.survives (hc : (s, t) ∈ cs) : h.Survives { old := os } s.start :=
  hs.survives_of_due (hp.pass.holds.plan.due _ hc)

private theorem Scavenged.copied (hd : h.Live d) :
    ∃ s t f, s.start = d ∧ (s, t) ∈ cs ∧ h.Object { old := os } s f ∧ ¬ f.IsBlock ∧
      t.start = cs.current d := by
  obtain ⟨s, t, f, g, hsd, hst, hb, hcur⟩ :=
    hp.pass.stands_of_live hs.scavengeOrigin hp.swept (hp.transfer hs) hd
  cases hst with
  | stays hout => cases hout
  | copied hc hf =>
    exact ⟨s, t, f, hsd, hc, object_scavengeOrigin.mp hf, hb, hcur⟩

-- The owner of a block was copied with the link, and the block that it leads to now is this one.
private theorem Scavenged.owner
    (hd : h'.memory.Direct h'.table ((h.scavengeOrigin os).arrived cs) t g) (hb : g.IsBlock) :
    ∃ s f, h'.memory.Direct h'.table ((h.scavengeOrigin os).arrived cs) s f ∧ ¬ f.IsBlock ∧
      f.tail = .outOfLine ∧
      h'.memory.read (f.cell h'.memory s.start .link) = Word.ofAddr t.start := by
  have ho := hs.scavengeOrigin
  have hplan := hp.pass.holds.plan
  obtain ⟨s, f, hc, hf, rfl⟩ := (hp.direct_iff hs).mp hd
  obtain ⟨hcompact, s', f', hf', hlive, ht', hl'⟩ :=
    (hp.survives hs hc).owner hs hf (Evacuation.isBlock_shape.mp hb)
  obtain ⟨u, t', k, hu, hc', hk, hkb, -⟩ := hp.copied hs hlive
  have hus : u = s' := hs.wellFormed.eq_of_start hk.mem hf'.mem hu
  subst hus
  obtain rfl := hk.unique hf'
  have hshape : (h.scavengeOrigin os).pass.shape k = k := Evacuation.shape_of_keeping hcompact
  have hst : (h.scavengeOrigin os).Stands cs u t' k k := by
    have hst := Origin.Stands.copied hc' (object_scavengeOrigin.mpr hk)
    rwa [hshape] at hst
  obtain ⟨b, kb, tb, hbo, -, -, hlb, htb, hr⟩ := hp.pass.link ho hp.swept hst ht'
  refine ⟨t', k, (hp.direct_iff hs).mpr ⟨u, k, hc', hk, hshape⟩, hkb, ht', ?_⟩
  have hbs : b.start = s.start :=
    ho.wellFormed.ofAddr_inj (.of_mem hbo.mem) (.of_mem (object_scavengeOrigin.mpr hf).mem)
      (hlb.symm.trans hl')
  rw [hr, ← htb.current_eq ho hplan, hbs, hplan.current_of_mem ho hc]

/-- A scavenge leaves what the roots reach. -/
theorem Scavenged.kept : h'.Kept ((h.scavengeOrigin os).arrived cs) := by
  have ho := hs.scavengeOrigin
  have hplan := hp.pass.holds.plan
  have hg := hp.sameGraph hs
  refine ⟨?_, hs.filled_scavengeOrigin.tiles_arrived hp.pass.holds, fun t ht ↦ ?_,
    fun e ↦ ⟨fun he ↦ ?_, ?_⟩, fun t g hd hb ↦ ?_, fun t g hd ht ↦ ?_, fun a ha ↦ ?_⟩
  · rw [hp.table, hp.settings]
    exact hp.pass.wellFormed ho hp.swept
  · obtain ⟨⟨s, t⟩, hc, rfl⟩ := List.mem_map.mp ht
    obtain ⟨-, f, hf, -⟩ := hplan.object _ hc
    exact ⟨_, (hp.direct_iff hs).mpr ⟨s, f, hc, object_scavengeOrigin.mp hf, rfl⟩⟩
  · obtain ⟨d, hd, rfl⟩ := hg.live_iff.mp he
    obtain ⟨s, t, f, rfl, hc, hf, hb, hcur⟩ := hp.copied hs hd
    exact ⟨t, _, (hp.direct_iff hs).mpr ⟨s, f, hc, hf, rfl⟩,
      fun hgb ↦ hb (Evacuation.isBlock_shape.mp hgb), hcur⟩
  · rintro ⟨t, g, hd, hb, rfl⟩
    obtain ⟨s, f, hc, hf, rfl⟩ := (hp.direct_iff hs).mp hd
    rw [← hplan.current_of_mem ho hc]
    exact hg.live ((hp.survives hs hc).live hs hf fun hfb ↦ hb (Evacuation.isBlock_shape.mpr hfb))
  · exact hp.owner hs hd hb
  · obtain ⟨s, f, -, -, rfl⟩ := (hp.direct_iff hs).mp hd
    rw [hp.settings]
    exact (Evacuation.tail_shape_eq_outOfLine_iff.mp ht).2
  · obtain ⟨t, g, hd, -, rfl⟩ := hp.pass.direct_root ho hp.swept (hp.transfer hs) ha
    exact .of_mem hd.mem

/-- The tail of a node stays in a block unless tails are to be moved inline. -/
theorem Scavenged.tailBits_eq_outOfLine_iff (hd : h.Live d) :
    (h'.memory.header (cs.current d)).tailBits = .outOfLine ↔
      (h.memory.header d).tailBits = .outOfLine ∧ h.settings.compactTails = false := by
  obtain ⟨s, t, f, rfl, hc, hf, -, hcur⟩ := hp.copied hs hd
  rw [← hcur, Memory.tailBits_of_form? ((hp.direct_iff hs).mpr ⟨s, f, hc, hf, rfl⟩).form?,
    Memory.tailBits_of_form? hf.form?]
  exact Evacuation.tail_shape_eq_outOfLine_iff

/-- What a scavenge leaves in use is what the live objects need. -/
theorem Scavenged.cursor_eq : h'.semispace.active.cursor = h.liveWords :=
  (hp.kept hs).cursor_eq.trans (hp.sameGraph hs).liveWords_eq

end Scavenge

/-- The live objects need no more words than are in use. -/
theorem Sound.liveWords_le (hs : h.Sound { old := os }) :
    h.liveWords ≤ h.semispace.active.cursor := by
  obtain ⟨tally, h', -, cs, m, hp, -⟩ := (ends_scavenge hs).exists_eq_ok
  have hle : h'.semispace.active.start + h'.semispace.active.cursor ≤
      h.semispace.reserve.start + h.semispace.reserve.cursor + h.semispace.active.cursor :=
    hp.pass.holds.plan.stop_le hs.scavengeOrigin
  have hstart : h'.semispace.active.start = h.semispace.reserve.start := hp.pass.holds.start
  have := hs.reserve
  rw [← hp.cursor_eq hs]
  omega

end Tenure.Heap
