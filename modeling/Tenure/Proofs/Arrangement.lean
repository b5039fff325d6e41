import Tenure.Proofs.Survivors

/-!
# The arrangement of the copies

After a scavenge the objects lie in the order in which a search from the roots meets them: those
that the roots refer to come first, then object by object those that its slots refer to. Main
statement: `Scavenged.arranged`.
-/

namespace Tenure

namespace Heap

/-- The references that the slots of the object at `a` hold, in order. -/
def refsOf (h : Heap) (a : Nat) : List Nat :=
  match h.memory.slots h.table a with
  | .error _ => []
  | .ok slots => slots.refs h.memory

/-- The active half holds what the roots reach, in the order in which a search meets it. -/
structure Arranged (h : Heap) (ts : List Span) : Prop where
  kept : h.Kept ts
  search : Search h.roots.toList h.refsOf (ts.map Span.start)

end Heap

variable {h h' : Heap} {os ts : List Span} {cs : Copies} {m : Memory} {s t : Span} {f g : Form}
  {a d : Nat}

/-! ### References in a half that holds nothing but direct objects -/

/-- The slots of an object hold what its slot parts hold. -/
theorem Memory.WellFormed.refsOf_eq
    (hw : h.memory.WellFormed h.table h.settings.padding os)
    (hg : h.memory.Direct h.table os t g) :
    h.refsOf t.start =
      g.slotParts.filterMap fun part ↦
        Word.toRef? (h.memory.read (g.cell h.memory t.start part)) := by
  have hlink : g.tail = .outOfLine → h.memory.read (g.cell h.memory t.start .link) ≠ Word.null := by
    intro ht
    obtain ⟨b, k, hk, hl, -⟩ := hw.block t g hg ht
    rw [hl]
    exact (hw.mapped_start hk.mem).ofAddr_ne_null
  rw [Heap.refsOf, Memory.slots_of_form? hg.form?]
  simp only [Slots.refs, Form.list_slots hlink, List.filterMap_map]
  rfl

namespace Heap

section Kept

variable (hk : h.Kept ts)
include hk

/-- A reference to an object denotes that object. -/
theorem Kept.resolve (ha : IsObject ts a) : h.memory.resolve a = a := by
  obtain ⟨t, ht, rfl⟩ := ha
  obtain ⟨g, hg⟩ := hk.direct t ht
  exact Memory.resolve_of_hop?_eq_none hg.hop?

/-- A reference part denotes what it refers to. -/
theorem Kept.denoted?_eq {part : Part} (hg : h.memory.Direct h.table ts t g)
    (hp : g.Refers part) : h.memory.denoted? (g.cell h.memory t.start part) =
      Word.toRef? (h.memory.read (g.cell h.memory t.start part)) := by
  rw [Memory.denoted?]
  cases hr : Word.toRef? (h.memory.read (g.cell h.memory t.start part)) with
  | none => rfl
  | some a =>
    rw [Option.map_some, hk.resolve (hk.wellFormed.isObject_of_slot hg (.inl hp) hr)]

/-- Everything in the active half can be found from the roots. -/
theorem Kept.findable (ht : t ∈ ts) : Findable h.roots.toList h.refsOf t.start := by
  have hlive : ∀ d, h.Live d → Findable h.roots.toList h.refsOf d := by
    intro d hd
    induction hd with
    | @root a ha =>
      rw [hk.resolve (hk.roots a ha)]
      exact .root ha
    | @field d e c hd hc he ih =>
      obtain ⟨u, k, hu, hb, rfl⟩ := (hk.live d).mp hd
      obtain ⟨part, hp, hden⟩ := (Memory.mem_references_view hu.form? hb hc).mp he
      rw [hk.denoted?_eq hu hp] at hden
      refine ih.next ?_
      rw [hk.wellFormed.refsOf_eq hu]
      exact List.mem_filterMap.mpr ⟨part, Form.mem_slotParts.mpr (.inl hp), hden⟩
  obtain ⟨g, hg⟩ := hk.direct t ht
  by_cases hb : g.IsBlock
  · obtain ⟨s, f, hf, hfb, hft, hl⟩ := hk.block t g hg hb
    refine (hlive s.start ((hk.live _).mpr ⟨s, f, hf, hfb, rfl⟩)).next ?_
    rw [hk.wellFormed.refsOf_eq hf]
    refine List.mem_filterMap.mpr ⟨.link, Form.mem_slotParts.mpr (.inr ⟨rfl, hft⟩), ?_⟩
    rw [hl, hk.wellFormed.toRef?_ofAddr (.of_mem hg.mem)]
  · exact hlive _ ((hk.live _).mpr ⟨t, g, hg, hb, rfl⟩)

end Kept

/-! ### What a scavenge arranges -/

section Scavenged

variable (hs : h.Sound { old := os }) (hp : Scavenged h os cs m h')
include hs hp

/-- What the slots of a copy refer to is where that is now which was found. -/
theorem Scavenged.refsOf_eq (hc : (s, t) ∈ cs) : h'.refsOf t.start =
    ((h.scavengeOrigin os).found s).map cs.current := by
  have ho := hs.scavengeOrigin
  have hk := hp.kept hs
  obtain ⟨-, f, hf, -⟩ := hp.pass.holds.plan.object _ hc
  have hst : (h.scavengeOrigin os).Stands cs s t f _ := .copied hc hf
  have hdir : h'.memory.Direct h'.table ((h.scavengeOrigin os).arrived cs) t
      ((h.scavengeOrigin os).pass.shape f) := by
    rw [hp.table]
    exact (hp.pass.direct_iff ho hp.swept).mpr ⟨s, f, hst⟩
  rw [hk.wellFormed.refsOf_eq hdir, Origin.found_eq hf, Origin.denoted, List.map_filterMap]
  refine List.filterMap_congr fun part hpart ↦ ?_
  rcases Form.mem_slotParts.mp hpart with hr | ⟨rfl, ht⟩
  · rw [← hk.denoted?_eq hdir hr]
    exact hp.pass.denoted?_eq ho hp.swept hst hr
  · obtain ⟨b, k, tb, hb, -, -, hl, htb, hr⟩ := hp.pass.link ho hp.swept hst ht
    have htb' := (hp.pass.direct_iff ho hp.swept).mpr ⟨b, k, htb⟩
    rw [hr, hk.wellFormed.toRef?_ofAddr (.of_mem htb'.mem), Memory.denoted?, hl,
      ho.wellFormed.toRef?_ofAddr (.of_mem hb.mem), Option.map_some, Option.map_some,
      Memory.resolve_of_hop?_eq_none hb.hop?, htb.current_eq ho hp.pass.holds.plan]

/-- What was met are objects. -/
theorem Scavenged.object_of_met (hd : d ∈ h.roots.toList.map h.memory.resolve ++
    cs.flatMap fun c ↦ (h.scavengeOrigin os).found c.1) :
    ∃ s f, (h.scavengeOrigin os).Object s f ∧ s.start = d := by
  have ho := hs.scavengeOrigin
  rcases List.mem_append.mp hd with hd | hd
  · obtain ⟨a, ha, rfl⟩ := List.mem_map.mp hd
    obtain ⟨-, -, s, f, hf, he, -⟩ := (hs.roots a ha).denotes
    exact ⟨s, f, object_scavengeOrigin.mpr hf, he⟩
  · obtain ⟨⟨s, t⟩, hc, hd⟩ := List.mem_flatMap.mp hd
    obtain ⟨-, f, hf, -⟩ := hp.pass.holds.plan.object _ hc
    rw [Origin.found_eq hf] at hd
    obtain ⟨part, hpart, hden⟩ := List.mem_filterMap.mp hd
    have hslot := Evacuation.isSlot_of_shape (Form.mem_slotParts.mp hpart)
    rcases ho.slot ⟨s, f, part, hf, hslot, rfl⟩ with hz | ⟨b, u, k, hb, hob, hu, hl⟩
    · rw [Memory.denoted?, hz] at hden
      cases hden
    · rw [Memory.denoted?, hb, ho.wellFormed.toRef?_ofAddr hob, Option.map_some, hl.resolve] at hden
      exact ⟨u, k, hu, Option.some.inj hden⟩

/-- A scavenge leaves the objects in the order in which a search from the roots meets them. -/
theorem Scavenged.arranged : h'.Arranged ((h.scavengeOrigin os).arrived cs) := by
  have ho := hs.scavengeOrigin
  have hplan := hp.pass.holds.plan
  have hk := hp.kept hs
  let met := h.roots.toList.map h.memory.resolve ++
    cs.flatMap fun c ↦ (h.scavengeOrigin os).found c.1
  have hmet : ∀ d ∈ met, ∃ s f, (h.scavengeOrigin os).Object s f ∧ s.start = d :=
    fun d hd ↦ hp.object_of_met hs hd
  have harrived : (h.scavengeOrigin os).arrived cs = cs.map Prod.snd := List.nil_append _
  have hsources : ((h.scavengeOrigin os).arrived cs).map Span.start =
      cs.sources.map cs.current := by
    rw [harrived, Copies.sources, List.map_map, List.map_map]
    exact List.map_congr_left fun c hc ↦ (hplan.current_of_mem ho hc).symm
  have horder : cs.sources = met.foldl encounter [] := by
    rw [← Origin.foldl_meet_eq (o := h.scavengeOrigin os) fun d hd ↦ ?_]
    · exact hp.order
    · obtain ⟨s, f, hf, rfl⟩ := hmet d hd
      exact (ho.contains_iff hf.mem).mpr ((List.append_nil os) ▸ hf.mem)
  have hinj : ∀ x y, x ∈ [] ∨ x ∈ met → y ∈ [] ∨ y ∈ met → cs.current x = cs.current y → x = y := by
    intro x y hx hy he
    obtain ⟨s, f, hf, rfl⟩ := hmet x (hx.resolve_left List.not_mem_nil)
    obtain ⟨s', f', hf', rfl⟩ := hmet y (hy.resolve_left List.not_mem_nil)
    rw [hplan.current_inj ho hf hf' he]
  have hmoved : met.map cs.current = h'.roots.toList ++
      (((h.scavengeOrigin os).arrived cs).map Span.start).flatMap h'.refsOf := by
    rw [List.map_append, List.map_map, List.map_flatMap, hp.roots, harrived, List.map_map,
      List.flatMap_map]
    refine congrArg _ (List.flatMap_congr fun c hc ↦ ?_)
    exact (hp.refsOf_eq hs hc).symm
  refine ⟨hk, ⟨?_, fun a ha ↦ ?_⟩⟩
  · calc ((h.scavengeOrigin os).arrived cs).map Span.start
        = (met.foldl encounter []).map cs.current := by rw [hsources, horder]
      _ = (met.map cs.current).foldl encounter [] := map_foldl_encounter hinj
      _ = _ := by rw [hmoved]
  · obtain ⟨t, ht, rfl⟩ := List.mem_map.mp ha
    exact hk.findable ht

end Scavenged

end Heap

end Tenure
