import Tenure.Proofs.Accounts

/-!
# Where objects go

A collection moves objects. To follow them is to follow the entries of the root stack and, from
there, the references. Old objects can be followed even if nothing refers to them, as they stay
where they are until the halves of the semispace change places. Main statements:
`Relocates.unique`, objects can be followed in one way only; `exists_carries_of_collect`, under what
follows them they look as before.
-/

namespace Tenure.Heap

/-- A collection that leads from `h` to `h'` keeps the object at `d`: the roots reach it, or an old
object does and the halves of the semispace have not changed places. -/
inductive Spared (h : Heap) (l : Census) (h' : Heap) : Nat → Prop
  | root {a : Nat} : a ∈ h.roots.toList → Spared h l h' (h.memory.resolve a)
  | old {s : Span} {f : Form} : h'.swaps = h.swaps → s ∈ l.old → h.Object l s f → ¬ f.IsBlock →
    Spared h l h' s.start
  | field {d e : Nat} {c : Contents Nat} : Spared h l h' d →
    h.memory.view h.table d = some c → e ∈ c.references → Spared h l h' e

/-- The renaming `φ` follows the objects that are spared. -/
structure Relocates (φ : Nat → Nat) (h : Heap) (l : Census) (h' : Heap) : Prop where
  /-- The entries of the root stack correspond. -/
  roots : h'.roots.toList.map h'.memory.resolve = (h.roots.toList.map h.memory.resolve).map φ
  /-- Old objects stay where they are. -/
  stays : h'.swaps = h.swaps → ∀ s ∈ l.old, ∀ f, h.Object l s f → ¬ f.IsBlock →
    φ s.start = s.start
  /-- The references of an object correspond. -/
  references : ∀ d c, Spared h l h' d → h.memory.view h.table d = some c →
    ∃ c', h'.memory.view h'.table (φ d) = some c' ∧ c'.references = c.references.map φ

/-- The object at `d` lies outside the nursery at `φ d` and looks as before, up to the renaming of
what it refers to. -/
structure Carried (φ : Nat → Nat) (h h' : Heap) (l' : Census) (d : Nat) : Prop where
  object : ∃ t g, h'.Object l' t g ∧ t.start = φ d ∧ ¬ g.IsBlock
  outside : h'.nursery.region.contains (φ d) = false
  tag : (h'.memory.header (φ d)).tagBits = (h.memory.header d).tagBits
  view : h'.memory.view h'.table (φ d) = (h.memory.view h.table d).map (·.map φ)

/-- The renaming `φ` follows the objects that are spared, keeps them apart, and carries each of them
along. -/
structure Carries (φ : Nat → Nat) (h : Heap) (l : Census) (h' : Heap) (l' : Census) : Prop
    extends Relocates φ h l h' where
  table : h'.table = h.table
  injective : ∀ d e, Spared h l h' d → Spared h l h' e → φ d = φ e → d = e
  carried : ∀ d, Spared h l h' d → Carried φ h h' l' d

variable {h h' h₁ h₂ : Heap} {l l' l₁ : Census} {cs : Copies} {m : Memory} {φ ψ : Nat → Nat}
  {f : Form} {a b d n : Nat}

/-- If the halves have changed places, just what the roots reach is spared. -/
theorem Spared.live (hd : Spared h l h' d) (hsw : h'.swaps ≠ h.swaps) : h.Live d := by
  induction hd with
  | root ha => exact .root ha
  | old he => exact absurd he hsw
  | field _ hc he ih => exact .field ih hc he

/-- Objects can be followed in one way only. -/
theorem Relocates.unique (hφ : Relocates φ h l h') (hψ : Relocates ψ h l h')
    (hd : Spared h l h' d) : φ d = ψ d := by
  induction hd with
  | root ha =>
    have he := hφ.roots.symm.trans hψ.roots
    exact List.map_inj_left.mp he _ (List.mem_map_of_mem ha)
  | old he hm hf hb => rw [hφ.stays he _ hm _ hf hb, hψ.stays he _ hm _ hf hb]
  | field hd hc he ih =>
    obtain ⟨c₁, hc₁, hr₁⟩ := hφ.references _ _ hd hc
    obtain ⟨c₂, hc₂, hr₂⟩ := hψ.references _ _ hd hc
    rw [ih, hc₂, Option.some.injEq] at hc₁
    rw [← hc₁, hr₂] at hr₁
    exact List.map_inj_left.mp hr₁.symm _ he

/-- Where references correspond is told by the views. -/
theorem Relocates.of_carried
    (hroots : h'.roots.toList.map h'.memory.resolve = (h.roots.toList.map h.memory.resolve).map φ)
    (hstays : h'.swaps = h.swaps → ∀ s ∈ l.old, ∀ f, h.Object l s f → ¬ f.IsBlock →
      φ s.start = s.start)
    (hc : ∀ d, Spared h l h' d → Carried φ h h' l' d) : Relocates φ h l h' where
  roots := hroots
  stays := hstays
  references := fun d c hd hv ↦
    ⟨c.map φ, by rw [(hc d hd).view, hv, Option.map_some], Contents.references_map φ c⟩

/-! ### Collections -/

section Promoted

variable (hs : h.Sound l) (hp : Promoted h l cs m h')
include hs hp

/-- An epoch moves what is spared out of the nursery. -/
theorem Promoted.stands_of_spared (hd : Spared h l h₁ d) : ∃ s t f g, s.start = d ∧
    (h.epochOrigin l).Stands cs s t f g ∧ ¬ f.IsBlock ∧ t.start = cs.current d := by
  have ho := hs.epochOrigin
  induction hd with
  | root ha => exact hp.pass.stands_of_live ho hp.swept (hp.transfer hs) (.root ha)
  | @old s f _ hm hf hb =>
    have hst : (h.epochOrigin l).Stands cs s s f f := .stays hm hf
    exact ⟨s, s, f, f, rfl, hst, hb, (hst.current_eq ho hp.pass.holds.plan).symm⟩
  | field _ hc he ih =>
    obtain ⟨s, t, f, g, rfl, hst, hb, -⟩ := ih
    exact hp.pass.stands_of_view ho hp.swept hst hb hc he

/-- An epoch carries what is spared along. -/
theorem Promoted.carries : Carries cs.current h l h' { old := (h.epochOrigin l).arrived cs } := by
  have ho := hs.epochOrigin
  have hplan := hp.pass.holds.plan
  have hs' := hp.sound hs
  have hdirect : ∀ {s t f g}, (h.epochOrigin l).Stands cs s t f g →
      h'.Object { old := (h.epochOrigin l).arrived cs } t g := by
    intro s t f g hst
    rw [Object, hp.table]
    exact (hp.pass.direct_iff ho hp.swept).mpr ⟨s, f, hst⟩
  have hcarried : ∀ d, Spared h l h' d →
      Carried cs.current h h' { old := (h.epochOrigin l).arrived cs } d := by
    intro d hd
    obtain ⟨s, t, f, g, rfl, hst, hb, hcur⟩ := hp.stands_of_spared hs hd
    have hg := hdirect hst
    refine ⟨⟨t, g, hg, hcur, fun hgb ↦ hb (hst.isBlock_iff.mp hgb)⟩, ?_, ?_, ?_⟩
    · rw [← hcur]
      exact hs'.not_contains_old (i := 0) hst.mem_arrived (hs'.wellFormed.nonempty t hg.mem)
    · have hf : h.memory.form? h.table s.start = some f := hst.object.form?
      rw [← hcur, Memory.tagBits_of_form? hg.form?, Memory.tagBits_of_form? hf]
      cases hst with
      | stays => rfl
      | copied => exact Evacuation.tag_shape ..
    · rw [← hcur, hp.table]
      exact hp.pass.view ho hp.swept hst hb
  refine ⟨.of_carried (hp.sameGraph hs).roots (fun _ s hm f hf hb ↦ ?_) hcarried, hp.table,
    fun d e hd he heq ↦ ?_, hcarried⟩
  · have hst : (h.epochOrigin l).Stands cs s s f f := .stays hm hf
    exact hst.current_eq ho hplan
  · obtain ⟨s, t, f, g, rfl, hst, -, -⟩ := hp.stands_of_spared hs hd
    obtain ⟨s', t', f', g', rfl, hst', -, -⟩ := hp.stands_of_spared hs he
    rw [hplan.current_inj ho hst.object hst'.object heq]

end Promoted

/-- A collection in which the halves change places carries what the roots reach along. -/
theorem Collected.exists_carries (hc : Collected h l h' l') (hsw : h'.swaps ≠ h.swaps) :
    ∃ φ, Carries φ h l h' l' := by
  obtain ⟨φ, hg⟩ := hc.graph
  have hs' := hc.sound
  have hcarried : ∀ d, Spared h l h' d → Carried φ h h' l' d := by
    intro d hd
    have hlive := hd.live hsw
    obtain ⟨t, g, hgo, he, hb⟩ := (hg.live hlive).object hs'
    refine ⟨⟨t, g, hgo, he, hb⟩, ?_, hg.tag d hlive, hg.view d hlive⟩
    have hm : t ∈ l'.old := by
      have := hgo.mem
      rwa [Census.objects, hc.young, List.nil_append] at this
    rw [← he]
    exact hs'.not_contains_old (i := 0) hm (hs'.wellFormed.nonempty t hgo.mem)
  exact ⟨φ, .of_carried hg.roots (fun he ↦ absurd he hsw) hcarried, hg.table,
    fun d e hd he heq ↦ hg.injective d e (hd.live hsw) (he.live hsw) heq, hcarried⟩

private theorem ends_promoteNursery_promoted (hs : h.Sound l) :
    Ends promoteNursery h (fun _ h' ↦ (∃ cs m, Promoted h l cs m h') ∧ h'.epochs = h.epochs + 1 ∧
      h'.swaps = h.swaps) (fun _ _ ↦ True) := by
  rw [promoteNursery_eq]
  refine ((ends_epoch hs).mono (fun _ _ hg ↦ hg) fun _ _ _ ↦ trivial).bind ?_
  rintro tally h₁ ⟨cs, m, hp, -, -, hstat⟩
  rw [count, ends_change_bind]
  apply ends_report.imp
  rintro _ h₂ ⟨hsame, hstat'⟩
  refine ⟨⟨cs, m, hp.of_sameStore hsame.of_count⟩, ?_, ?_⟩
  · rw [Heap.epochs, Heap.epochs, hstat']
    simp only [Statistics.addMinor, hstat]
  · rw [Heap.swaps, Heap.swaps, hstat']
    simp only [Statistics.addMinor, hstat]

private theorem ends_scavengeOnThreshold_sameStore (hn : ¬ h.IsFull) :
    Ends scavengeOnThreshold h (fun _ h' ↦ SameStore h h') (fun _ _ ↦ False) := by
  rw [scavengeOnThreshold, scavengeIfFull, bind_assoc, ends_ask_bind, bind_assoc, ends_ask_bind,
    if_pos (Nat.not_le.mp hn), bind_assoc, ends_tell_bind]
  exact ⟨rfl, rfl, rfl, rfl, rfl, rfl⟩

private theorem exists_promoted_of_collect (hs : h.Sound l) (hroom : h.Headroom)
    (he : collect h = .ok () h') (hsw : h'.swaps = h.swaps) : ∃ cs m, Promoted h l cs m h' := by
  obtain ⟨-, ⟨h₁, h₂, he₁, he₂, -, hconcurrent, hscavenges⟩, -⟩ :=
    (ends_collect_counts hs hroom).of_eq_ok he
  rw [Heap.swaps, Heap.swaps, hconcurrent, hscavenges] at hsw
  have hn : ¬ h₁.IsFull := by
    intro hfull
    rw [if_pos hfull] at hsw
    omega
  have hyes : h₂.hasHeadroom = true := by
    by_contra hno
    rw [if_neg hno] at hsw
    omega
  have hsame : Ends collect h (fun _ h' ↦ SameStore h₂ h') (fun _ _ ↦ False) := by
    rw [collect, ends_bind_iff, ends_iff_of_eq_ok he₁, ends_bind_iff, ends_iff_of_eq_ok he₂,
      ends_ask_bind, if_neg (by simpa [hasHeadroom] using hyes)]
    exact ⟨rfl, rfl, rfl, rfl, rfl, rfl⟩
  obtain ⟨⟨cs, m, hp⟩, -⟩ := (ends_promoteNursery_promoted hs).of_eq_ok he₁
  have hsame₂ : SameStore h₁ h₂ := (ends_scavengeOnThreshold_sameStore hn).of_eq_ok he₂
  exact ⟨cs, m, (hp.of_sameStore hsame₂).of_sameStore (hsame.of_eq_ok he)⟩

/-- A cycle carries along what it spares. -/
theorem exists_carries_of_collect (hs : h.Sound l) (hroom : h.Headroom)
    (he : collect h = .ok () h') : ∃ φ l', Collected h l h' l' ∧ h'.Headroom ∧
      Carries φ h l h' l' := by
  obtain ⟨⟨l', hc⟩, hep, hroom'⟩ := (ends_collect hs).of_eq_ok he
  by_cases hsw : h'.swaps = h.swaps
  · obtain ⟨cs, m, hp⟩ := exists_promoted_of_collect hs hroom he hsw
    exact ⟨_, _, hp.collected hs hc.epochs hsw, hroom', hp.carries hs⟩
  · obtain ⟨φ, hg⟩ := hc.exists_carries hsw
    exact ⟨φ, l', hc, hroom', hg⟩

/-- A major collection carries along what it spares. -/
theorem exists_carries_of_majorCollection (hs : h.Sound l) (hroom : h.Headroom)
    (he : majorCollection h = .ok () h') : ∃ φ l', Collected h l h' l' ∧ h'.Headroom ∧
      Carries φ h l h' l' := by
  obtain ⟨⟨l', hc⟩, -, hroom'⟩ := (ends_majorCollection hs).of_eq_ok he
  obtain ⟨-, hm, -⟩ := (ends_majorCollection_counts hs hroom).of_eq_ok he
  obtain ⟨φ, hg⟩ := hc.exists_carries (by
    rw [Heap.swaps, Heap.swaps, hm.scavenges, hm.concurrent]
    omega)
  exact ⟨φ, l', hc, hroom', hg⟩

/-! ### Allocations -/

private theorem Spared.congr (hsw : h₂.swaps = h₁.swaps) (hd : Spared h l h₁ d) :
    Spared h l h₂ d := by
  induction hd with
  | root ha => exact .root ha
  | old he hm hf hb => exact .old (hsw.trans he) hm hf hb
  | field _ hc he ih => exact .field ih hc he

/-- With more roots, more is spared. -/
theorem Spared.holding (hd : Spared h l h' d) : Spared (h.holding a n) l h' d := by
  induction hd with
  | @root b ha =>
    have hb : b ∈ (h.holding a n).roots.toList := by
      rw [toList_holding]
      exact List.mem_append_left _ ha
    exact Spared.root (h := h.holding a n) hb
  | old he hm hf hb => exact Spared.old (h := h.holding a n) he hm hf hb
  | field _ hc he ih => exact Spared.field (h := h.holding a n) ih hc he

/-- Objects stay as they are when another one is placed. -/
theorem Carried.placed (hs : h₁.Sound l₁) (hp : Placed h₁ f a h₂) (hc : Carried φ h h₁ l₁ d) :
    Carried φ h h₂ (l₁.place f h₁.settings.padding a) d := by
  obtain ⟨t, g, hg, he, hb⟩ := hc.object
  refine ⟨⟨t, g, (hp.object_iff hs).mpr (.inl hg), he, hb⟩, ?_, ?_, ?_⟩
  · rw [hp.contains, hc.outside]
  · rw [← hc.tag, ← he, Memory.header, Memory.header, hp.read_start hs hg.mem]
  · rw [← hc.view, ← he, hp.view hs hg hb]

/-- An allocation moves nothing that is there. -/
theorem Carries.placed (hs : h₁.Sound l₁) (hp : Placed h₁ f a h₂) (hc : Carries φ h l h₁ l₁) :
    Carries φ h l h₂ (l₁.place f h₁.settings.padding a) := by
  have hsw : h₁.swaps = h₂.swaps := by rw [Heap.swaps, Heap.swaps, hp.statistics]
  have hcarried : ∀ d, Spared h l h₂ d →
      Carried φ h h₂ (l₁.place f h₁.settings.padding a) d := fun d hd ↦
    (hc.carried d (hd.congr hsw)).placed hs hp
  refine ⟨.of_carried ?_ (by rw [← hsw]; exact hc.stays) hcarried, hp.table.trans hc.table,
    fun d e hd he ↦ hc.injective d e (hd.congr hsw) (he.congr hsw), hcarried⟩
  rw [hp.roots, ← hc.roots]
  exact List.map_congr_left fun b hb ↦ (hp.denotes hs (hs.roots b hb).denotes).resolve

/-- Roots that were made before a collection may be given up after it. -/
theorem Carries.cutTo (hc : Carries φ (h.holding a n) l h₁ l₁) :
    Carries φ h l (h₁.cutTo h.roots.size) l₁ := by
  have hsw : h₁.swaps = (h₁.cutTo h.roots.size).swaps := rfl
  have hspared : ∀ d, Spared h l (h₁.cutTo h.roots.size) d → Spared (h.holding a n) l h₁ d :=
    fun d hd ↦ (hd.congr hsw).holding
  have hcarried : ∀ d, Spared h l (h₁.cutTo h.roots.size) d →
      Carried φ h (h₁.cutTo h.roots.size) l₁ d := fun d hd ↦
    have hd := hc.carried d (hspared d hd)
    ⟨hd.object, hd.outside, hd.tag, hd.view⟩
  refine ⟨.of_carried ?_ hc.stays hcarried, hc.table,
    fun d e hd he ↦ hc.injective d e (hspared d hd) (hspared e he), hcarried⟩
  have htake := congrArg (List.take h.roots.size) hc.roots
  simp only [← List.map_take, toList_holding] at htake
  rw [List.take_left' (RootStack.length_toList _)] at htake
  rw [Heap.cutTo, RootStack.toList_truncate]
  exact htake

end Tenure.Heap
