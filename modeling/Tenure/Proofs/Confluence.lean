import Tenure.Proofs.Selection

/-!
# The order of promotions

What an epoch promotes and how much it takes up is settled when the epoch begins, so the order in
which it goes through the remembered set and through the roots does no more than to arrange the
copies. Main statement: `Sound.epochs_confluent`, epochs of one heap in any orders promote as much
and leave the same graph, and only the copies may lie elsewhere.
-/

namespace Tenure

/-- Where what is at `d` now was before. -/
def Copies.origin (cs : Copies) (d : Nat) : Nat :=
  match cs.find? (·.2.start = d) with
  | some c => c.1.start
  | none => d

namespace Heap

/-- The remembered set is gone through once, and each root is promoted, perhaps more than once. -/
structure Orders (h : Heap) (remembered depths : List Nat) : Prop where
  remembered : remembered.Perm h.nursery.remembered
  depths : ∀ i, i ∈ depths ↔ i < h.roots.size

/-- Two epochs of `h` have left `h₁` and `h₂`. The graph is the same, and `φ`, which renames its
nodes, moves none but those that were promoted. -/
structure Rearranged (φ : Nat → Nat) (h h₁ h₂ : Heap) : Prop where
  graph : SameGraph φ h₁ h₂
  /-- Tails are laid out alike. -/
  tail : ∀ d, h₁.Live d →
    (h₂.memory.header (φ d)).tailBits = (h₁.memory.header d).tailBits
  nursery : h₂.nursery = h₁.nursery
  /-- As many words are in use. -/
  semispace : h₂.semispace = h₁.semispace
  statistics : h₂.statistics = h₁.statistics
  stays : ∀ d, h₁.Live d → d < h.semispace.active.start + h.semispace.active.cursor → φ d = d
  promoted : ∀ d, h₁.Live d → h.semispace.active.start + h.semispace.active.cursor ≤ d →
    h.semispace.active.start + h.semispace.active.cursor ≤ φ d

variable {h h₁ h₂ : Heap} {l : Census} {cs cs₁ cs₂ : Copies} {m m₁ m₂ : Memory} {s t : Span}
  {f g : Form} {tally₁ tally₂ : Tally} {d : Nat}

end Heap

/-- What stands for an object comes from where the object was. -/
theorem Origin.Stands.origin_eq {o : Origin} {stop : Nat} (ho : o.Sound) (hp : o.Plan cs stop)
    (h : o.Stands cs s t f g) : cs.origin t.start = s.start := by
  unfold Copies.origin
  cases hc : cs.find? (·.2.start = t.start) with
  | some c =>
    obtain ⟨u, v⟩ := c
    have hm := List.mem_of_find?_eq_some hc
    have he : v.start = t.start := by simpa using List.find?_some hc
    obtain ⟨-, k, hk, -⟩ := hp.object _ hm
    have hst : o.Stands cs u v k _ := .copied hm hk
    have hus := (hst.unique ho hp h (hst.words_pos ho hp) (h.words_pos ho hp) (by rw [he])).1
    exact congrArg Span.start hus
  | none =>
    cases h with
    | stays => rfl
    | copied hm hf =>
      rw [List.find?_eq_none] at hc
      exact absurd (decide_eq_true rfl) (hc _ hm)

namespace Heap

section Promoted

variable (hs : h.Sound l) (hp₁ : Promoted h l cs₁ m₁ h₁) (hp₂ : Promoted h l cs₂ m₂ h₂)
include hs hp₁ hp₂

/-- Every node is where one of the other heap is that stands for the same object. -/
theorem Promoted.stands_both (hd : h.Live d) : ∃ s t₁ t₂ f g, s.start = d ∧
    (h.epochOrigin l).Stands cs₁ s t₁ f g ∧ (h.epochOrigin l).Stands cs₂ s t₂ f g ∧
    t₁.start = cs₁.current d ∧ t₂.start = cs₂.current d := by
  have ho := hs.epochOrigin
  obtain ⟨s, t₁, f, g, rfl, hst₁, -, hc₁⟩ :=
    hp₁.pass.stands_of_live ho hp₁.swept (hp₁.transfer hs) hd
  obtain ⟨s', t₂, f', g', he, hst₂, -, hc₂⟩ :=
    hp₂.pass.stands_of_live ho hp₂.swept (hp₂.transfer hs) hd
  obtain rfl := ho.wellFormed.eq_of_start hst₂.object.mem hst₁.object.mem he
  obtain rfl := hst₁.object.unique hst₂.object
  refine ⟨s', t₁, t₂, f, g, rfl, hst₁, ?_, hc₁, hc₂⟩
  cases hst₁ with
  | stays hm _ =>
    cases hst₂ with
    | stays => exact .stays hm ‹_›
    | copied hc _ => exact absurd hm (ho.not_mem_outside (hp₂.pass.holds.plan.object _ hc).1)
  | copied hc _ =>
    have hm := (hp₁.pass.holds.plan.object _ hc).1
    obtain ⟨hc', rfl⟩ := hst₂.mem_of_inside ho hm
    exact hst₂

/-- Both epochs copy the same objects. -/
theorem Promoted.same_length : cs₂.length = cs₁.length := by
  rw [hp₁.length_eq hs, hp₂.length_eq hs]

/-- Both epochs fill the active half to the same word. -/
theorem Promoted.same_cursor : h₂.semispace.active.cursor = h₁.semispace.active.cursor := by
  have htotal := (hp₁.total_eq hs).trans (hp₂.total_eq hs).symm
  have hs₁ : h₁.semispace.active.start = h.semispace.active.start := hp₁.pass.holds.start
  have hs₂ : h₂.semispace.active.start = h.semispace.active.start := hp₂.pass.holds.start
  have ht₁ : h.semispace.active.start + h.semispace.active.cursor +
      Span.total (cs₁.map Prod.snd) =
      h₁.semispace.active.start + h₁.semispace.active.cursor := hp₁.pass.holds.plan.tiles.add_total
  have ht₂ : h.semispace.active.start + h.semispace.active.cursor +
      Span.total (cs₂.map Prod.snd) =
      h₂.semispace.active.start + h₂.semispace.active.cursor := hp₂.pass.holds.plan.tiles.add_total
  omega

private theorem Promoted.same_active : h₂.semispace.active = h₁.semispace.active := by
  have hs₁ : h₁.semispace.active.start = h.semispace.active.start := hp₁.pass.holds.start
  have hs₂ : h₂.semispace.active.start = h.semispace.active.start := hp₂.pass.holds.start
  have hk₁ : h₁.semispace.active.capacity = h.semispace.active.capacity := hp₁.pass.holds.capacity
  have hk₂ : h₂.semispace.active.capacity = h.semispace.active.capacity := hp₂.pass.holds.capacity
  exact Region.ext (hs₂.trans hs₁.symm) (hk₂.trans hk₁.symm) (hp₁.same_cursor hs hp₂)

/-- From where one epoch has put a node, the way back and on leads to where the other one has. -/
theorem Promoted.current_origin (hd : h.Live d) :
    (cs₂.current ∘ cs₁.origin) (cs₁.current d) = cs₂.current d := by
  obtain ⟨s, t₁, t₂, f, g, rfl, hst₁, -, hc₁, -⟩ := hp₁.stands_both hs hp₂ hd
  rw [Function.comp_apply, ← hc₁, hst₁.origin_eq hs.epochOrigin hp₁.pass.holds.plan]

/-- A node after the one epoch stands for an object for which a node after the other one stands. -/
theorem Promoted.stands_of_live (hd : h₁.Live d) : ∃ s t₁ t₂ f g,
    (h.epochOrigin l).Stands cs₁ s t₁ f g ∧ (h.epochOrigin l).Stands cs₂ s t₂ f g ∧
    t₁.start = d ∧ t₂.start = (cs₂.current ∘ cs₁.origin) d := by
  obtain ⟨x, hx, rfl⟩ := (hp₁.sameGraph hs).live_iff.mp hd
  obtain ⟨s, t₁, t₂, f, g, rfl, hst₁, hst₂, hc₁, hc₂⟩ := hp₁.stands_both hs hp₂ hx
  exact ⟨s, t₁, t₂, f, g, hst₁, hst₂, hc₁, by rw [hp₁.current_origin hs hp₂ hx, hc₂]⟩

/-- Both epochs lay the tail of a node out alike. -/
theorem Promoted.same_tail (hd : h₁.Live d) :
    (h₂.memory.header ((cs₂.current ∘ cs₁.origin) d)).tailBits =
      (h₁.memory.header d).tailBits := by
  have ho := hs.epochOrigin
  obtain ⟨s, t₁, t₂, f, g, hst₁, hst₂, rfl, hc₂⟩ := hp₁.stands_of_live hs hp₂ hd
  have hd₁ := (hp₁.pass.direct_iff ho hp₁.swept).mpr ⟨s, f, hst₁⟩
  have hd₂ := (hp₂.pass.direct_iff ho hp₂.swept).mpr ⟨s, f, hst₂⟩
  rw [← hc₂, Memory.tailBits_of_form? hd₁.form?, Memory.tailBits_of_form? hd₂.form?]

/-- The graph is the same after both epochs. -/
theorem Promoted.rearranged (hstat : h₂.statistics = h₁.statistics) :
    Rearranged (cs₂.current ∘ cs₁.origin) h h₁ h₂ := by
  have ho := hs.epochOrigin
  have hg₁ := hp₁.sameGraph hs
  have hg₂ := hp₂.sameGraph hs
  constructor
  case graph =>
    exact { hg₁.renames.between hg₂.renames fun d hd ↦ hp₁.current_origin hs hp₂ hd with
      settings := hg₂.settings.trans hg₁.settings.symm
      tail := fun d hd ↦ .inl (hp₁.same_tail hs hp₂ hd) }
  case tail => exact fun d hd ↦ hp₁.same_tail hs hp₂ hd
  case nursery => rw [hp₁.nursery, hp₂.nursery]
  case semispace =>
    have hactive := hp₁.same_active hs hp₂
    have hreserve : h₂.semispace.reserve = h₁.semispace.reserve := by
      rw [hp₁.reserve, hp₂.reserve]
    cases hsem₁ : h₁.semispace
    cases hsem₂ : h₂.semispace
    rw [hsem₁, hsem₂] at hactive hreserve
    rw [Semispace.mk.injEq]
    exact ⟨hactive, hreserve⟩
  case statistics => exact hstat
  case stays =>
    intro d hd hlt
    obtain ⟨s, t₁, t₂, f, g, hst₁, hst₂, rfl, ht⟩ := hp₁.stands_of_live hs hp₂ hd
    rw [← ht]
    cases hst₁ with
    | stays hm _ => rw [hst₂.eq_of_outside ho hp₂.pass.holds.plan hm]
    | copied hc _ =>
      -- Copies lie behind all that was there before the epoch.
      have hle : h.semispace.active.start + h.semispace.active.cursor ≤ t₁.start :=
        (hp₁.pass.holds.plan.copy_mem hc).1
      omega
  case promoted =>
    intro d hd hle
    obtain ⟨s, t₁, t₂, f, g, hst₁, hst₂, rfl, ht⟩ := hp₁.stands_of_live hs hp₂ hd
    rw [← ht]
    cases hst₁ with
    | stays hm _ =>
      have hlt : h.semispace.active.start ≤ s.start ∧
          s.stop ≤ h.semispace.active.start + h.semispace.active.cursor ∧ 0 < s.words :=
        hs.old.mem hm
      rw [Span.stop] at hlt
      omega
    | copied hc _ =>
      have hm := (hp₁.pass.holds.plan.object _ hc).1
      exact (hp₂.pass.holds.plan.copy_mem (hst₂.mem_of_inside ho hm).1).1

end Promoted

/-- Both epochs give the same tally. -/
theorem Completed.confluent (hs : h.Sound l) (hc₁ : Completed h l tally₁ h₁)
    (hc₂ : Completed h l tally₂ h₂) : tally₂ = tally₁ ∧ ∃ φ, Rearranged φ h h₁ h₂ := by
  obtain ⟨cs₁, m₁, hp₁, hobj₁, hwords₁, hstat₁⟩ := hc₁
  obtain ⟨cs₂, m₂, hp₂, hobj₂, hwords₂, hstat₂⟩ := hc₂
  refine ⟨?_, _, hp₁.rearranged hs hp₂ (hstat₂.trans hstat₁.symm)⟩
  have hlength := hp₁.same_length hs hp₂
  have hcursor := hp₁.same_cursor hs hp₂
  have hobj : tally₂.objects = tally₁.objects := by omega
  have hwords : tally₂.words = tally₁.words := by omega
  cases tally₁
  cases tally₂
  rw [Tally.mk.injEq]
  exact ⟨hobj, hwords⟩

/-- An epoch does not get stuck if the active half has room for what is in the nursery. -/
theorem Sound.exists_completed {op : HeapM Tally} (hs : h.Sound l)
    (hroom : h.nursery.region.cursor ≤ h.semispace.active.free)
    (hop : Ends op h (Completed h l) (fun e _ ↦ EpochStuck h l e)) :
    ∃ tally h', op h = .ok tally h' ∧ Completed h l tally h' := by
  refine (hop.mono (fun _ _ hg ↦ hg) fun _ _ hstuck ↦ ?_).exists_eq_ok
  obtain ⟨st, hstuck⟩ := hstuck
  have hlt : h.semispace.active.free < h.nursery.region.cursor := hstuck.lt hs.epochOrigin
  omega

/-- Epochs of one heap in any two orders promote as much as the epoch of a collection does, and
leave the same graph. -/
theorem Sound.epochs_confluent {r₁ r₂ d₁ d₂ : List Nat} (hs : h.Sound l)
    (hroom : h.nursery.region.cursor ≤ h.semispace.active.free) (ho₁ : h.Orders r₁ d₁)
    (ho₂ : h.Orders r₂ d₂) :
    ∃ tally h₀ h₁ h₂, Heap.epoch h = .ok tally h₀ ∧ epochIn r₁ d₁ h = .ok tally h₁ ∧
      epochIn r₂ d₂ h = .ok tally h₂ ∧ (∃ φ, Rearranged φ h h₀ h₁) ∧
      ∃ φ, Rearranged φ h h₁ h₂ := by
  obtain ⟨tally₀, h₀, he₀, hc₀⟩ := hs.exists_completed hroom (ends_epoch hs)
  obtain ⟨tally₁, h₁, he₁, hc₁⟩ :=
    hs.exists_completed hroom (ends_epochIn hs ho₁.remembered ho₁.depths)
  obtain ⟨tally₂, h₂, he₂, hc₂⟩ :=
    hs.exists_completed hroom (ends_epochIn hs ho₂.remembered ho₂.depths)
  obtain ⟨rfl, h₀₁⟩ := hc₀.confluent hs hc₁
  obtain ⟨rfl, h₁₂⟩ := hc₁.confluent hs hc₂
  exact ⟨tally₂, h₀, h₁, h₂, he₀, he₁, he₂, h₀₁, h₁₂⟩

open Mutator in
/-- A heap with two remembered objects and two roots, one of which is promoted twice by one of the
epochs. -/
theorem confluent_sample : ∃ h l, h.Sound l ∧
    h.nursery.region.cursor ≤ h.semispace.active.free ∧
    h.Orders h.nursery.remembered [0, 1] ∧ h.Orders h.nursery.remembered.reverse [1, 0, 1] ∧
    h.nursery.remembered.length = 2 ∧
    ∃ tally h₀ h₁ h₂, epoch h = .ok tally h₀ ∧
      epochIn h.nursery.remembered [0, 1] h = .ok tally h₁ ∧
      epochIn h.nursery.remembered.reverse [1, 0, 1] h = .ok tally h₂ ∧
      (∃ φ, Rearranged φ h h₀ h₁) ∧ ∃ φ, Rearranged φ h h₁ h₂ := by
  obtain ⟨s, l, hs, hr⟩ := Sample.reaches
  have hc : (Sample.session Sample.smallSettings).map (fun s ↦
      (s.heap.nursery.remembered.length, s.heap.roots.size,
        decide (s.heap.nursery.region.cursor ≤ s.heap.semispace.active.free))) =
      some (2, 2, true) := by
    decide +kernel
  rw [hs, Option.map_some, Option.some.injEq, Prod.mk.injEq, Prod.mk.injEq] at hc
  obtain ⟨hrem, hsize, hroom⟩ := hc
  have ho₁ : s.heap.Orders s.heap.nursery.remembered [0, 1] := by
    refine ⟨.refl _, fun i ↦ ?_⟩
    simp only [hsize, List.mem_cons, List.not_mem_nil, or_false]
    omega
  have ho₂ : s.heap.Orders s.heap.nursery.remembered.reverse [1, 0, 1] := by
    refine ⟨List.reverse_perm _, fun i ↦ ?_⟩
    simp only [hsize, List.mem_cons, List.not_mem_nil, or_false]
    omega
  exact ⟨s.heap, l, hr.sound.heap, of_decide_eq_true hroom, ho₁, ho₂, hrem,
    hr.sound.heap.epochs_confluent (of_decide_eq_true hroom) ho₁ ho₂⟩

end Heap

end Tenure
