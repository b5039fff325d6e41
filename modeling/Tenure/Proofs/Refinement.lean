import Tenure.Proofs.Representation

/-!
# Heaps refine ideal heaps

As long as none of its instructions fails, a program gets from a heap what it would get from an
ideal heap, whatever the settings are and whenever the heap collects. Main statement: `refines`.
-/

namespace Tenure.Ideal

open Mutator (Session SessionM Operand Instr Reply Register)

/-- The reply tells what the answer of the ideal heap tells. -/
def Tells (loc : Nat → Option Nat) (h : Heap) (reply : Reply) : Answer → Prop
  | .done => reply = .done
  | .flag value => reply = .flag value
  | .count value => reply = .count value
  | .word value => reply = .word value
  | .rooted number depth => reply = .rooted number depth
  | .reference v => ∃ value, reply.reference? = some value ∧ Means loc h v value

/-- The session and the ideal heap are related again after an instruction. -/
structure Answered (loc : Nat → Option Nat) (s : Session) (l : Census) (t : Ideal) (reply : Reply)
    (answer : Answer) : Prop where
  related : Related loc s l t
  tells : Tells loc s.heap reply answer
  /-- A reference that may be kept is valid. -/
  valid : ∀ a, reply.object? = some a → s.heap.Valid l a

/-- If the step of the session gives a reply, then the ideal heap gives an answer to go with it. -/
def Mirrors (x : SessionM Reply) (s : Session) (out : Option (Answer × Ideal)) : Prop :=
  Ends x s (fun reply s' ↦ ∃ answer t loc l, out = some (answer, t) ∧
    Answered loc s' l t reply answer) (fun _ _ ↦ True)

/-- From here on, a program gets from the session what it gets from the ideal heap, up to the first
instruction that fails, in whatever order the remembered set is gone through. In between, the
session keeps representing the ideal heap. -/
def Agrees : List (Instr × Option String) → Session → Ideal → Prop
  | [], _, _ => True
  | (instr, register) :: rest, s, t =>
    ∀ h, s.heap.Reordered h → Ends (Mutator.run instr register) { s with heap := h }
      (fun reply s' ↦ ∃ answer t' loc, t.run instr register = some (answer, t') ∧
        Represents loc s' t' ∧ Tells loc s'.heap reply answer ∧ Agrees rest s' t')
      fun _ _ ↦ True

/-- The replies differ in addresses at most, but not in whether references are null. -/
structure Alike (reply reply' : Reply) : Prop where
  reference : reply.reference?.map Option.isSome = reply'.reference?.map Option.isSome
  rest : reply.reference? = none → reply = reply'

variable {loc loc' : Nat → Option Nat} {s s' : Session} {h h' : Heap} {l l' : Census} {t : Ideal}
  {x y d a i : Nat} {v value : Option Nat} {part : Part} {w : Word} {sp u : Span} {f g : Form}
  {o : Object} {c : Contents Nat}

/-! ### Operands -/

section Operands

variable (hr : Related loc s l t)
include hr

/-- The root stacks are equally high. -/
theorem Related.size_stack : t.stack.size = s.heap.roots.size := by
  have hl := congrArg List.length hr.stack
  simpa only [List.length_map, RootStack.length_toList] using hl

private theorem Related.refOf_root {number : Nat} :
    Ends (Mutator.refOf (.root number)) s
      (fun value _ ↦ ∃ v, t.refOf (.root number) = some v ∧ Means loc s.heap v value)
      (fun _ _ ↦ True) := by
  simp only [Mutator.refOf, Ends, bind, EStateM.bind, Mutator.rootOf, refOf, hr.roots]
  cases s.roots.getD number none with
  | none => trivial
  | some root =>
    simp only [Option.bind_some, Mutator.onHeap, Heap.rootAt]
    cases hg : s.heap.roots.get root.depth with
    | error e => trivial
    | ok a =>
      have ha := RootStack.get_eq_ok_iff.mp hg
      have he := congrArg (·[root.depth]?) hr.stack
      simp only [List.getElem?_map, ha, Option.map_some] at he
      obtain ⟨x, hx, hloc⟩ := Option.map_eq_some_iff.mp he
      rw [RootStack.get_eq_ok_iff.mpr hx]
      exact ⟨some x, rfl, congrArg some hloc⟩

private theorem Related.refOf_register {name : String} :
    Ends (Mutator.refOf (.register name)) s
      (fun value _ ↦ ∃ v, t.refOf (.register name) = some v ∧ Means loc s.heap v value)
      (fun _ _ ↦ True) := by
  simp only [Mutator.refOf, Ends, Mutator.registerOf, refOf]
  cases hl : s.registers.lookup name with
  | none => trivial
  | some register =>
    obtain ⟨value, epochs⟩ := register
    cases value with
    | none => exact hr.registers name none epochs hl (.inl rfl)
    | some a =>
      by_cases he : epochs = s.heap.statistics.minor
      · simp only [if_pos he]
        exact hr.registers name (some a) epochs hl (.inr he)
      · simp only [if_neg he]

/-- An operand stands for the same object on both sides. -/
theorem Related.ends_refOf (operand : Operand) :
    Ends (Mutator.refOf operand) s
      (fun value s' ↦ (s' = s ∧ ∀ a, value = some a → s.heap.Valid l a) ∧
        ∃ v, t.refOf operand = some v ∧ Means loc s.heap v value)
      (fun _ _ ↦ True) := by
  have hmeans : Ends (Mutator.refOf operand) s
      (fun value _ ↦ ∃ v, t.refOf operand = some v ∧ Means loc s.heap v value)
      (fun _ _ ↦ True) := by
    cases operand with
    | null => exact ⟨none, rfl, rfl⟩
    | root number => exact hr.refOf_root
    | register name => exact hr.refOf_register
  apply ((Mutator.ends_refOf hr.sound operand).and hmeans).mono
  · intro value s' hg
    exact hg
  · intro e s' _
    trivial

private theorem mirrors_refOf {k : Option Nat → SessionM Reply}
    {k' : Option Nat → Option (Answer × Ideal)} {operand : Operand}
    (hk : ∀ value v, (∀ a, value = some a → s.heap.Valid l a) → Means loc s.heap v value →
      Mirrors (k value) s (k' v)) :
    Mirrors (Mutator.refOf operand >>= k) s (t.refOf operand >>= k') := by
  apply (hr.ends_refOf operand).bind
  rintro value s' ⟨⟨he, hv⟩, v, hout, hm⟩
  subst he
  rw [hout]
  exact hk value v hv hm

private theorem mirrors_objectOf {k : Nat → SessionM Reply} {k' : Nat → Option (Answer × Ideal)}
    {operand : Operand}
    (hk : ∀ a x, s.heap.Valid l a → loc x = some (s.heap.memory.resolve a) →
      Mirrors (k a) s (k' x)) :
    Mirrors (Mutator.objectOf operand >>= k) s (t.objectOf operand >>= k') := by
  rw [Mutator.objectOf, bind_assoc]
  apply (hr.ends_refOf operand).bind
  rintro value s' ⟨⟨he, hv⟩, v, hout, hm⟩
  subst he
  cases value with
  | none => trivial
  | some a =>
    cases v with
    | none => cases hm
    | some x =>
      have hx : t.objectOf operand = some x := by rw [objectOf, hout, Option.join_some]
      rw [hx]
      exact hk a x (hv a rfl) (Option.some.inj hm)

end Operands

private theorem mirrors_onHeap {α : Type} {op : HeapM α} {good : α → Heap → Prop}
    {bad : Fault → Heap → Prop} {k : α → SessionM Reply} {out : Option (Answer × Ideal)}
    (hop : Ends op s.heap good bad)
    (hk : ∀ z h', good z h' → Mirrors (k z) { s with heap := h' } out) :
    Mirrors (Mutator.onHeap op >>= k) s out := by
  apply ((Mutator.ends_onHeap hop).mono (fun _ _ hg ↦ hg) fun _ _ _ ↦ trivial).bind
  rintro z s' ⟨hg, he⟩
  rw [he]
  exact hk z s'.heap hg

/-! ### Objects -/

/-- The object that an operand denotes is there on both sides. -/
theorem Related.found (hr : Related loc s l t) (hv : s.heap.Valid l a)
    (hx : loc x = some (s.heap.memory.resolve a)) :
    ∃ sp f o c, s.heap.Named l a sp f ∧ loc x = some sp.start ∧ t.objects[x]? = some o ∧
      s.heap.memory.view s.heap.table sp.start = some c ∧ o.contents.map loc = c.map some := by
  obtain ⟨sp, f, hn⟩ := hv.named
  rw [hn.resolve] at hx
  obtain ⟨o, c, ho, -, hc, hmap⟩ := hr.object x _ hx
  exact ⟨sp, f, o, c, hn, hx, ho, hc, hmap⟩

/-- What is done with an object may look at it on both sides. -/
theorem mirrors_foundOf (hr : Related loc s l t) {k : Nat → SessionM Reply}
    {k' : Nat → Option (Answer × Ideal)} {operand : Operand}
    (hk : ∀ a x sp f o c, s.heap.Named l a sp f → loc x = some sp.start →
      t.objects[x]? = some o → s.heap.memory.view s.heap.table sp.start = some c →
      o.contents.map loc = c.map some → Mirrors (k a) s (k' x)) :
    Mirrors (Mutator.objectOf operand >>= k) s (t.objectOf operand >>= k') := by
  apply mirrors_objectOf hr
  intro a x hv hx
  obtain ⟨sp, f, o, c, hn, hx, ho, hc, hmap⟩ := hr.found hv hx
  exact hk a x sp f o c hn hx ho hc hmap

section Parts

variable (hmap : o.contents.map loc = c.map some)
include hmap

private theorem prims_eq : o.contents.prims = c.prims := by
  show (o.contents.map loc).prims = (c.map some).prims
  rw [hmap]

private theorem ptrs_eq (hi : c.ptrs[i]? = some (value.map h.memory.resolve)) :
    ∃ v, o.contents.ptrs[i]? = some v ∧ Means loc h v value := by
  have he := congrArg (fun c : Contents (Option Nat) ↦ c.ptrs[i]?) hmap
  simp only [Contents.map, List.getElem?_map, hi, Option.map_some] at he
  obtain ⟨v, hv, hm⟩ := Option.map_eq_some_iff.mp he
  exact ⟨v, hv, by rw [Means, hm, Option.map_map]; rfl⟩

private theorem words_eq {values : List Word} (hu : c.units = .words values) :
    o.contents.units = .words values := by
  have he := congrArg Contents.units hmap
  simp only [Contents.map, hu, Units.map] at he
  cases ho : o.contents.units with
  | words values' =>
    rw [ho] at he
    rw [Units.words.inj he]
  | refs values' =>
    rw [ho] at he
    cases he

private theorem refs_eq {values : List (Option Nat)} (hu : c.units = .refs values) :
    ∃ values', o.contents.units = .refs values' ∧
      values'.map (·.map loc) = values.map (·.map some) := by
  have he := congrArg Contents.units hmap
  simp only [Contents.map, hu, Units.map] at he
  cases ho : o.contents.units with
  | words values' =>
    rw [ho] at he
    cases he
  | refs values' =>
    rw [ho] at he
    exact ⟨values', rfl, Units.refs.inj he⟩

end Parts

/-! ### Instructions -/

/-- A reply that holds no reference. -/
theorem Answered.of_tells {reply : Reply} {answer : Answer} (hr : Related loc s l t)
    (ht : Tells loc s.heap reply answer) (hn : reply.object? = none) :
    Answered loc s l t reply answer :=
  ⟨hr, ht, fun a ha ↦ by rw [hn] at ha; cases ha⟩

/-- A reference that is read is kept as it is. -/
theorem Answered.reference (hr : Related loc s l t)
    (hv : ∀ a, value = some a → s.heap.Valid l a) (hm : Means loc s.heap v value) :
    Answered loc s l t (.reference value) (.reference v) := by
  refine ⟨hr, ⟨value, rfl, hm⟩, fun a ha ↦ hv a ?_⟩
  rwa [Mutator.Reply.object?, Mutator.Reply.reference?, Option.join_some] at ha

/-- What is stored means what the value means. -/
theorem Means.resolved (hm : Means loc s.heap v value)
    (hv : ∀ a, value = some a → s.heap.Valid l a) :
    Means loc s.heap v (value.map s.heap.memory.resolve) := by
  rw [Means] at hm ⊢
  rw [hm]
  cases value with
  | none => rfl
  | some a =>
    simp only [Option.map_some, (hv a rfl).resolve_resolve]

section Instructions

variable (hr : Related loc s l t)
include hr

private theorem mirrors_copy {object : Operand} :
    Mirrors (Mutator.exec (.copy object)) s (t.exec (.copy object)) := by
  apply mirrors_refOf hr
  intro value v hv hm
  exact ⟨_, t, loc, l, rfl, .reference hr hv hm⟩

private theorem mirrors_prim {object : Operand} {index : Nat} :
    Mirrors (Mutator.exec (.prim object index)) s (t.exec (.prim object index)) := by
  apply mirrors_foundOf hr
  intro a x sp f o c hn hx ho hc hmap
  apply mirrors_onHeap (Heap.ends_prim hn)
  rintro w h' ⟨he, hw⟩
  subst he
  have hprim : o.contents.prims[index]? = some w := by rw [prims_eq hmap, hw c hc]
  simp only [ho, hprim, Option.bind_eq_bind, Option.bind_some]
  exact ⟨_, t, loc, l, rfl, .of_tells hr rfl rfl⟩

private theorem mirrors_ptr {object : Operand} {index : Nat} :
    Mirrors (Mutator.exec (.ptr object index)) s (t.exec (.ptr object index)) := by
  apply mirrors_foundOf hr
  intro a x sp f o c hn hx ho hc hmap
  apply mirrors_onHeap (Heap.ends_ptr hr.sound.heap hn)
  rintro value h' ⟨he, hval, hp⟩
  subst he
  obtain ⟨v, hptr, hm⟩ := ptrs_eq hmap (hp c hc)
  simp only [ho, hptr, Option.bind_eq_bind, Option.bind_some]
  exact ⟨_, t, loc, l, rfl, .reference hr hval hm⟩

private theorem mirrors_setPrim {object : Operand} {index : Nat} {value : Word} :
    Mirrors (Mutator.exec (.setPrim object index value)) s
      (t.exec (.setPrim object index value)) := by
  apply mirrors_foundOf hr
  intro a x sp f o c hn hx ho hc hmap
  apply mirrors_onHeap (Heap.ends_setPrim hn)
  intro _ h' hst
  have hi : index < o.contents.prims.length := by
    rw [prims_eq hmap, hn.view_eq hc, List.length_map, List.length_range]
    exact hst.has
  simp only [ho, guard, if_pos hi, Option.bind_eq_bind, Option.bind_some, Option.pure_def]
  exact ⟨_, _, loc, l, rfl, .of_tells (hr.stored none hst hx ho rfl) rfl rfl⟩

private theorem mirrors_setPtr {object value : Operand} {index : Nat} :
    Mirrors (Mutator.exec (.setPtr object index value)) s
      (t.exec (.setPtr object index value)) := by
  apply mirrors_foundOf hr
  intro a x sp f o c hn hx ho hc hmap
  refine mirrors_refOf hr fun b v hb hm ↦ mirrors_onHeap (Heap.ends_setPtr hn hb) fun _ h' hst ↦ ?_
  have hi : index < o.contents.ptrs.length := by
    have he := congrArg (List.length ∘ Contents.ptrs) hmap
    simp only [Function.comp_apply, Contents.map, List.length_map] at he
    rw [he, hn.view_eq hc, List.length_map, List.length_range]
    exact hst.has
  simp only [ho, guard, if_pos hi, Option.bind_eq_bind, Option.bind_some, Option.pure_def]
  have hnext := hr.stored v hst hx ho (hm.resolved hb)
  exact ⟨_, _, loc, l, rfl, .of_tells hnext rfl rfl⟩

private theorem mirrors_tailLength {object : Operand} :
    Mirrors (Mutator.exec (.tailLength object)) s (t.exec (.tailLength object)) := by
  apply mirrors_foundOf hr
  intro a x sp f o c hn hx ho hc hmap
  apply mirrors_onHeap (Heap.ends_tailLength hn)
  rintro n h' ⟨he, hsize⟩
  subst he
  have hlen : n = o.contents.units.length := by
    rw [hsize]
    cases hk : f.type.units with
    | words =>
      obtain ⟨values, hu, hl, -⟩ := hn.words_eq hc hk
      rw [words_eq hmap hu, Units.length, hl]
    | refs =>
      obtain ⟨values, hu, hl, -⟩ := hn.refs_eq hc hk
      obtain ⟨values', hu', hv'⟩ := refs_eq hmap hu
      have he := congrArg List.length hv'
      rw [List.length_map, List.length_map] at he
      rw [hu', Units.length, he, hl]
  simp only [ho, Option.bind_eq_bind, Option.bind_some]
  exact ⟨_, t, loc, l, rfl, .of_tells hr (congrArg _ hlen) rfl⟩

private theorem mirrors_tailWord {object : Operand} {index : Nat} :
    Mirrors (Mutator.exec (.tailWord object index)) s (t.exec (.tailWord object index)) := by
  apply mirrors_foundOf hr
  intro a x sp f o c hn hx ho hc hmap
  apply mirrors_onHeap (Heap.ends_tailWord hn)
  rintro w h' ⟨he, hi, hw⟩
  subst he
  apply mirrors_onHeap (Heap.ends_unitKind hn)
  rintro kind h' ⟨he, hk⟩
  subst he
  cases kind with
  | words =>
    obtain ⟨values, hu, -, hval⟩ := hn.words_eq hc hk.symm
    have hread : values[index]? = some w := by rw [hval index hi, hw]
    simp only [ho, words_eq hmap hu, hread, Option.bind_eq_bind, Option.bind_some]
    exact ⟨_, t, loc, l, rfl, .of_tells hr rfl rfl⟩
  | refs =>
    obtain ⟨values, hu, -, hval⟩ := hn.refs_eq hc hk.symm
    obtain ⟨values', hu', hv'⟩ := refs_eq hmap hu
    have he := congrArg (·[index]?) hv'
    simp only [List.getElem?_map, hval index hi, Option.map_some] at he
    obtain ⟨v, hread, hm⟩ := Option.map_eq_some_iff.mp he
    simp only [ho, hu', hread, Option.bind_eq_bind, Option.bind_some]
    refine ⟨_, t, loc, l, rfl, .of_tells hr ?_ rfl⟩
    have hs := congrArg Option.isSome hm
    rw [Option.isSome_map, Option.isSome_map, Memory.denoted?, Option.isSome_map] at hs
    rw [Tells, hs, hw]

private theorem mirrors_setTailWord {object : Operand} {index : Nat} {value : Word} :
    Mirrors (Mutator.exec (.setTailWord object index value)) s
      (t.exec (.setTailWord object index value)) := by
  apply mirrors_foundOf hr
  intro a x sp f o c hn hx ho hc hmap
  apply mirrors_onHeap (Heap.ends_setTailWord hn)
  rintro _ h' ⟨hk, hst⟩
  obtain ⟨values, hu, hl, -⟩ := hn.words_eq hc hk
  have hu' := words_eq hmap hu
  have hi : index < values.length := by
    rw [hl]
    exact hst.has
  simp only [ho, hu', guard, if_pos hi, Option.bind_eq_bind, Option.bind_some, Option.pure_def]
  have hnext := hr.stored none hst hx ho rfl
  rw [Contents.store, hu', Units.store] at hnext
  exact ⟨_, _, loc, l, rfl, .of_tells hnext rfl rfl⟩

private theorem mirrors_tailPtr {object : Operand} {index : Nat} :
    Mirrors (Mutator.exec (.tailPtr object index)) s (t.exec (.tailPtr object index)) := by
  apply mirrors_foundOf hr
  intro a x sp f o c hn hx ho hc hmap
  apply mirrors_onHeap (Heap.ends_tailPtr hr.sound.heap hn)
  rintro value h' ⟨he, hval, hp⟩
  subst he
  obtain ⟨values, hu, hread⟩ := hp c hc
  obtain ⟨values', hu', hv'⟩ := refs_eq hmap hu
  have he := congrArg (·[index]?) hv'
  simp only [List.getElem?_map, hread, Option.map_some] at he
  obtain ⟨v, hread', hm⟩ := Option.map_eq_some_iff.mp he
  simp only [ho, hu', hread', Option.bind_eq_bind, Option.bind_some]
  refine ⟨_, t, loc, l, rfl, .reference hr hval ?_⟩
  rw [Means, hm, Option.map_map]
  rfl

private theorem mirrors_setTailPtr {object value : Operand} {index : Nat} :
    Mirrors (Mutator.exec (.setTailPtr object index value)) s
      (t.exec (.setTailPtr object index value)) := by
  apply mirrors_foundOf hr
  intro a x sp f o c hn hx ho hc hmap
  refine mirrors_refOf hr fun b v hb hm ↦
    mirrors_onHeap (Heap.ends_setTailPtr hn hb) fun _ h' ⟨hk, hst⟩ ↦ ?_
  obtain ⟨values, hu, hl, -⟩ := hn.refs_eq hc hk
  obtain ⟨values', hu', hv'⟩ := refs_eq hmap hu
  have hi : index < values'.length := by
    have he := congrArg List.length hv'
    rw [List.length_map, List.length_map, hl] at he
    rw [he]
    exact hst.has
  simp only [ho, hu', guard, if_pos hi, Option.bind_eq_bind, Option.bind_some, Option.pure_def]
  have hnext := hr.stored v hst hx ho (hm.resolved hb)
  rw [Contents.store, hu', Units.store] at hnext
  exact ⟨_, _, loc, l, rfl, .of_tells hnext rfl rfl⟩

private theorem mirrors_redirect {object target : Operand} :
    Mirrors (Mutator.exec (.redirect object target)) s (t.exec (.redirect object target)) := by
  refine mirrors_objectOf hr fun a x hv hx ↦ mirrors_objectOf hr fun b y hb hy ↦ ?_
  obtain ⟨sp, f, hn⟩ := hv.named
  obtain ⟨u, g, hg⟩ := hb.named
  rw [hn.resolve] at hx
  rw [hg.resolve] at hy
  apply mirrors_onHeap (Heap.ends_redirect hn hg)
  intro _ h' hred
  have hne : x ≠ y := by
    rintro rfl
    rw [hx] at hy
    exact hred.distinct
      (hr.sound.heap.wellFormed.eq_of_start hn.object.mem hg.object.mem (Option.some.inj hy))
  simp only [guard, if_pos hne, Option.bind_eq_bind, Option.bind_some, Option.pure_def]
  exact ⟨_, _, _, l, rfl, .of_tells (hr.redirected hred hx hy) rfl rfl⟩

/-! ### Collections and allocations -/

/-- A collection is not seen. -/
theorem Related.collected (hc : s.heap.Collected l h' l') (hroom : h'.Headroom) :
    ∃ loc', Related loc' { s with heap := h' } l' t := by
  obtain ⟨φ, hg⟩ := hc.graph
  exact ⟨_, hr.moved (hc.moves hroom) hg hc.epochs⟩

private theorem mirrors_collection {op : HeapM Unit} {bad : Fault → Heap → Prop}
    (hop : Ends op s.heap (fun _ h' ↦ (∃ l', s.heap.Collected l h' l') ∧
      h'.epochs = s.heap.epochs + 1 ∧ h'.Headroom) bad) :
    Mirrors (do Mutator.onHeap op; return .done) s (some (.done, t)) := by
  apply mirrors_onHeap hop
  rintro _ h' ⟨⟨l', hc⟩, _, hroom⟩
  obtain ⟨loc', hr'⟩ := hr.collected hc hroom
  exact ⟨_, t, loc', l', rfl, .of_tells hr' rfl rfl⟩

/-- A new object gets the next number, after a collection or not. -/
theorem mirrors_allocation {op : HeapM Nat} {bad : Fault → Heap → Prop} {tag size : Nat}
    (hop : Ends op s.heap (fun a h' ↦ ∃ h₁ l₁ type tail, Heap.Ready s.heap l h₁ l₁ ∧
      h₁.settings = s.heap.settings ∧ Heap.Placed h₁ ⟨tag, size, tail, type⟩ a h') bad) :
    Mirrors (do let a ← Mutator.onHeap op
                return .allocated a (← Mutator.onHeap (Heap.describe a))) s
      (t.allocate tag size) := by
  apply mirrors_onHeap hop
  rintro a h' ⟨h₁, l₁, type, tail, hready, _, hp⟩
  obtain ⟨loc₁, hr₁⟩ : ∃ loc₁, Related loc₁ { s with heap := h₁ } l₁ t := by
    rcases hready with ⟨rfl, rfl⟩ | ⟨hc, hroom⟩
    · exact ⟨loc, hr⟩
    · exact hr.collected hc hroom
  have hnew := hr₁.placed hp
  apply mirrors_onHeap Heap.ends_describe
  intro text h₂ he
  subst he
  have htag : tag ≠ blockTag := hp.form.notBlock
  have htype : t.table.get? tag = some type := by
    rw [← hr₁.table]
    exact hp.form.type
  simp only [allocate, if_neg htag, htype, Option.bind_eq_bind, Option.bind_some]
  refine ⟨_, _, _, _, rfl, hnew, ⟨some a, rfl, ?_⟩, fun b hb ↦ ?_⟩
  · rw [Means, Option.map_some, Option.map_some, if_pos rfl,
      (hp.named hr₁.sound.heap).resolve]
  · cases hb
    exact (hp.named hr₁.sound.heap).valid

private theorem mirrors_allocate {tag size : Nat} {tail : Option TailLayout} :
    Mirrors (Mutator.exec (.allocate tag size tail)) s (t.exec (.allocate tag size tail)) := by
  cases tail with
  | none => exact mirrors_allocation hr (Heap.ends_allocate hr.sound.heap)
  | some tail =>
    exact mirrors_allocation hr ((Heap.ends_allocateWith hr.sound.heap).imp
      fun a h' ⟨h₁, l₁, type, hready, hset, hp⟩ ↦ ⟨h₁, l₁, type, tail, hready, hset, hp⟩)

/-! ### Roots -/

private theorem mirrors_makeRoot {object : Operand} :
    Mirrors (Mutator.exec (.makeRoot object)) s (t.exec (.makeRoot object)) := by
  apply mirrors_objectOf hr
  intro a x hv hx
  have hre : Heap.Rerooted s.heap l { s.heap with roots := s.heap.roots.push a } :=
    (Heap.Rerooted.refl hr.sound.heap).push hv
  have hroot : Ends (Heap.root a) s.heap
      (fun r h' ↦ r = ⟨s.heap.roots.size⟩ ∧ h' = { s.heap with roots := s.heap.roots.push a })
      fun _ _ ↦ True := ⟨rfl, rfl⟩
  apply mirrors_onHeap hroot
  rintro r h' ⟨he, hh⟩
  subst he hh
  have hst : (t.stack.push x).toList.map loc = (s.heap.roots.push a).toList.map
      fun a ↦ some (s.heap.memory.resolve a) := by
    simp only [RootStack.toList_push, List.map_append, List.map_cons, List.map_nil, hr.stack, hx]
  have hnext := hr.rerooted (s.roots.push (some ⟨s.heap.roots.size⟩)) hre hst
  refine ⟨.rooted t.roots.size t.stack.size, _, loc, l, rfl, ?_⟩
  rw [hr.size_stack, hr.roots]
  exact .of_tells hnext rfl rfl

private theorem mirrors_rootOf {number : Nat} {k : Root → SessionM Reply}
    {k' : Root → Option (Answer × Ideal)} (hk : ∀ root, Mirrors (k root) s (k' root)) :
    Mirrors (Mutator.rootOf number >>= k) s (t.roots.getD number none >>= k') := by
  simp only [Mirrors, Ends, bind, EStateM.bind, Mutator.rootOf, hr.roots]
  cases s.roots.getD number none with
  | none => trivial
  | some root => exact hk root

private theorem mirrors_setRoot {number : Nat} {object : Operand} :
    Mirrors (Mutator.exec (.setRoot number object)) s (t.exec (.setRoot number object)) := by
  refine mirrors_objectOf hr fun a x hv hx ↦ mirrors_rootOf hr fun root ↦ ?_
  have hre : Ends (Heap.setRootAt root.depth a) s.heap
      (fun _ h' ↦ s.heap.Rerooted l h' ∧ s.heap.roots.set root.depth a = .ok h'.roots)
      fun _ _ ↦ True := by
    have hset := Heap.ends_setRootAt (n := root.depth) (.refl hr.sound.heap) hv
    unfold Ends Heap.setRootAt at hset ⊢
    cases he : s.heap.roots.set root.depth a with
    | error e => trivial
    | ok roots =>
      rw [he] at hset
      exact ⟨hset, rfl⟩
  apply mirrors_onHeap hre
  rintro _ h' ⟨hre, he⟩
  obtain ⟨hlt, hlist⟩ := RootStack.set_eq_ok_iff.mp he
  obtain ⟨stack, hstack, hsl⟩ : ∃ stack : RootStack Nat, t.stack.set root.depth x = .ok stack ∧
      stack.toList = t.stack.toList.set root.depth x :=
    ⟨⟨_⟩, RootStack.set_eq_ok_iff.mpr ⟨by rw [hr.size_stack]; exact hlt, rfl⟩, rfl⟩
  have hst : stack.toList.map loc = h'.roots.toList.map
      fun a ↦ some (s.heap.memory.resolve a) := by
    rw [hsl, hlist, List.map_set, List.map_set, hr.stack, hx]
  have hnext := hr.rerooted s.roots hre hst
  rw [hstack, hr.roots]
  exact ⟨.done, _, loc, l, rfl, .of_tells hnext rfl rfl⟩

private theorem mirrors_releaseRoot {number : Nat} :
    Mirrors (Mutator.exec (.releaseRoot number)) s (t.exec (.releaseRoot number)) := by
  apply mirrors_rootOf hr
  intro root
  have hre : Ends (Heap.releaseRoot root) s.heap
      (fun _ h' ↦ s.heap.Rerooted l h' ∧ s.heap.roots.release root = .ok h'.roots)
      fun _ _ ↦ True := by
    have hrel := Heap.ends_releaseRoot (r := root) (.refl hr.sound.heap)
    unfold Ends Heap.releaseRoot at hrel ⊢
    cases he : s.heap.roots.release root with
    | error e => trivial
    | ok roots =>
      rw [he] at hrel
      exact ⟨hrel, rfl⟩
  have hgoal : Mirrors (do Mutator.onHeap (Heap.releaseRoot root); return .done)
      { s with roots := s.roots.setIfInBounds number none } (do
        let stack ← (t.stack.release root).toOption
        return (.done, { t with stack, roots := t.roots.setIfInBounds number none })) := by
    refine mirrors_onHeap hre fun _ h' ⟨hre, he⟩ ↦ ?_
    obtain ⟨htop, hlist⟩ := RootStack.release_eq_ok_iff.mp he
    obtain ⟨stack, hstack, hsl⟩ : ∃ stack : RootStack Nat, t.stack.release root = .ok stack ∧
        stack.toList = t.stack.toList.dropLast := by
      refine ⟨⟨_⟩, RootStack.release_eq_ok_iff.mpr ⟨?_, rfl⟩, rfl⟩
      rw [htop, RootStack.top, RootStack.top, hr.size_stack]
    have hst : stack.toList.map loc = h'.roots.toList.map
        fun a ↦ some (s.heap.memory.resolve a) := by
      rw [hsl, hlist, List.map_dropLast, List.map_dropLast, hr.stack]
    have hnext := hr.rerooted (s.roots.setIfInBounds number none) hre hst
    rw [hstack, hr.roots]
    exact ⟨.done, _, loc, l, rfl, .of_tells hnext rfl rfl⟩
  exact hgoal

/-- Every instruction that makes sense on an ideal heap has the answer that goes with its reply. -/
theorem mirrors_exec {instr : Instr} (hc : Covers instr = true) :
    Mirrors (Mutator.exec instr) s (t.exec instr) := by
  cases instr with
  | allocate tag size tail => exact mirrors_allocate hr
  | makeRoot object => exact mirrors_makeRoot hr
  | setRoot number object => exact mirrors_setRoot hr
  | releaseRoot number => exact mirrors_releaseRoot hr
  | copy object => exact mirrors_copy hr
  | prim object index => exact mirrors_prim hr
  | setPrim object index value => exact mirrors_setPrim hr
  | ptr object index => exact mirrors_ptr hr
  | setPtr object index value => exact mirrors_setPtr hr
  | tailLength object => exact mirrors_tailLength hr
  | tailWord object index => exact mirrors_tailWord hr
  | setTailWord object index value => exact mirrors_setTailWord hr
  | tailPtr object index => exact mirrors_tailPtr hr
  | setTailPtr object index value => exact mirrors_setTailPtr hr
  | redirect object target => exact mirrors_redirect hr
  | minorCollection => exact mirrors_collection hr (Heap.ends_collect hr.sound.heap)
  | majorCollection => exact mirrors_collection hr (Heap.ends_majorCollection hr.sound.heap)
  | push object => cases hc
  | pop => cases hc
  | allocateUnder object count tag => cases hc
  | validate object => cases hc
  | describe object => cases hc
  | isYoung object => cases hc
  | same first second => cases hc
  | audit => cases hc

end Instructions

/-- A reply holds a reference just if the answer does. -/
theorem Tells.reference? {reply : Reply} {answer : Answer} (ht : Tells loc h reply answer) :
    (∃ value v, reply.reference? = some value ∧ answer = .reference v ∧ Means loc h v value) ∨
    reply.reference? = none ∧ ∀ v, answer ≠ .reference v := by
  cases answer with
  | reference v =>
    obtain ⟨value, hreply, hm⟩ := ht
    exact .inl ⟨value, v, hreply, rfl, hm⟩
  | _ =>
    cases ht
    exact .inr ⟨rfl, fun _ he ↦ by cases he⟩

/-- An instruction whose reply may be kept is mirrored as well. -/
theorem mirrors_run (hr : Related loc s l t) {instr : Instr} {register : Option String}
    (hc : Covers instr = true) :
    Mirrors (Mutator.run instr register) s (t.run instr register) := by
  apply (mirrors_exec hr hc).bind
  rintro reply s' ⟨answer, t', loc', l', hout, ha⟩
  have hskip : t.run instr register = some (answer, t') →
      Mirrors (do (pure () : SessionM Unit); return reply) s' (t.run instr register) :=
    fun he ↦ ⟨answer, t', loc', l', he, ha⟩
  cases register with
  | none =>
    apply hskip
    rw [run, hout]
    rfl
  | some name =>
    rcases ha.tells.reference? with ⟨value, v, hreply, rfl, hm⟩ | ⟨hreply, hanswer⟩
    · have hv : ∀ a, value = some a → s'.heap.Valid l' a := by
        intro a he
        apply ha.valid
        rw [Reply.object?, hreply, he, Option.join_some]
      have hkept : Answered loc'
          { s' with
            registers := (name, ⟨value, s'.heap.statistics.minor⟩) ::
              s'.registers.filter (·.1 ≠ name) } l' (t'.keep name v) reply (.reference v) :=
        ⟨ha.related.keep hv hm, ha.tells, ha.valid⟩
      rw [hreply]
      refine ⟨.reference v, t'.keep name v, loc', l', ?_, hkept⟩
      rw [run, hout]
      rfl
    · rw [hreply]
      apply hskip
      rw [run, hout, Option.bind_eq_bind, Option.bind_some]
      cases answer with
      | reference v => exact absurd rfl (hanswer v)
      | _ => rfl

/-! ### Programs -/

section Programs

variable {settings settings' : Settings} {table : TypeTable}
  {program : List (Instr × Option String)}

/-- A new heap represents an ideal heap without objects. -/
theorem related_of_create (hc : Heap.create settings table = .ok h) :
    Related (fun _ ↦ none) { heap := h } {} { table } where
  table := Heap.table_of_create hc
  injective := by simp
  object := by simp
  stack := by
    simp only [Heap.roots_of_create hc]
    rfl
  registers := by simp
  roots := rfl
  sound := ⟨Heap.sound_of_create hc, by simp, by simp⟩
  located := by simp

/-- A session that is related to an ideal heap agrees with it from then on. -/
theorem Related.agrees (hr : Related loc s l t)
    (hcovers : ∀ step ∈ program, Covers step.1 = true) : Agrees program s t := by
  induction program generalizing loc s l t with
  | nil => trivial
  | cons step rest ih =>
    obtain ⟨instr, register⟩ := step
    intro h ho
    have hstep : Mirrors (Mutator.run instr register) { s with heap := h }
        (t.run instr register) :=
      mirrors_run (hr.reordered ho) (hcovers _ (List.mem_cons_self ..))
    apply hstep.imp
    rintro reply s' ⟨answer, t', loc', l', hout, ha⟩
    have hrest := ih ha.related fun e he ↦ hcovers e (List.mem_cons_of_mem _ he)
    exact ⟨answer, t', loc', hout, ha.related.toRepresents, ha.tells, hrest⟩

/-- Replies that tell the same answer are alike. -/
theorem Tells.alike {reply reply' : Reply} {answer : Answer} (ht : Tells loc h reply answer)
    (ht' : Tells loc' h' reply' answer) : Alike reply reply' := by
  cases answer with
  | reference v =>
    obtain ⟨value, hreply, hm⟩ := ht
    obtain ⟨value', hreply', hm'⟩ := ht'
    constructor
    · rw [hreply, hreply', Option.map_some, Option.map_some, ← hm.isSome_eq, ← hm'.isSome_eq]
    · intro hnone
      rw [hreply] at hnone
      cases hnone
  | _ =>
    cases ht
    cases ht'
    exact ⟨rfl, fun _ ↦ rfl⟩

/-- Two runs of a program that agree with one run on an ideal heap have replies that are alike. -/
theorem Agrees.alike {s₁ s₁' : Session} {replies replies' : List Reply}
    (ha : Agrees program s t) (ha' : Agrees program s' t) (hs : Represents loc s t)
    (hs' : Represents loc' s' t) (hp : Mutator.Plays program s replies s₁)
    (hp' : Mutator.Plays program s' replies' s₁') :
    List.Forall₂ Alike replies replies' ∧
    ∃ t₁ loc₁ loc₁', Represents loc₁ s₁ t₁ ∧ Represents loc₁' s₁' t₁ := by
  -- Both sessions represent one ideal heap, which takes one step for both.
  induction hp generalizing loc loc' s' t replies' with
  | nil =>
    cases hp'
    exact ⟨.nil, _, loc, loc', hs, hs'⟩
  | cons ho he _ ih =>
    cases hp' with
    | cons ho' he' hrest' =>
      obtain ⟨answer, t₂, loc₂, hout, hs₂, ht, ha₂⟩ := (ha _ ho).of_eq_ok he
      obtain ⟨answer', t₂', loc₂', hout', hs₂', ht', ha₂'⟩ := (ha' _ ho').of_eq_ok he'
      obtain ⟨rfl, rfl⟩ : answer = answer' ∧ t₂ = t₂' := by
        rw [hout, Option.some.injEq, Prod.mk.injEq] at hout'
        exact hout'
      obtain ⟨hreplies, hend⟩ := ih ha₂ ha₂' hs₂ hs₂' hrest'
      exact ⟨.cons (ht.alike ht') hreplies, hend⟩

/-- A program gets from a new heap what it gets from an ideal heap, whatever the settings are and in
whatever order the remembered set is gone through. So two runs with different settings have the same
replies up to addresses, and end with representations of one ideal heap. -/
theorem refines (table : TypeTable) (program : List (Instr × Option String))
    (hcovers : ∀ step ∈ program, Covers step.1 = true) :
    (∀ settings h, Heap.create settings table = .ok h →
      Agrees program { heap := h } { table }) ∧
    ∀ settings settings' h h' s s' replies replies',
      Heap.create settings table = .ok h → Heap.create settings' table = .ok h' →
      Mutator.Plays program { heap := h } replies s →
      Mutator.Plays program { heap := h' } replies' s' →
      List.Forall₂ Alike replies replies' ∧
      ∃ t loc loc', Represents loc s t ∧ Represents loc' s' t := by
  refine ⟨fun settings h hc ↦ (related_of_create hc).agrees hcovers, ?_⟩
  intro settings settings' h h' s s' replies replies' hc hc' hp hp'
  have hr := related_of_create hc
  have hr' := related_of_create hc'
  exact (hr.agrees hcovers).alike (hr'.agrees hcovers) hr.toRepresents hr'.toRepresents hp hp'

/-- A run in little room with tails in blocks, and a run in much room with tails inline. -/
theorem refines_sample : ∃ h h' s s' replies replies',
    (∀ step ∈ Mutator.Sample.program, Covers step.1 = true) ∧
    Heap.create Mutator.Sample.smallSettings Mutator.Sample.nodeTable = .ok h ∧
    Heap.create { inlineTails := true, padding := true } Mutator.Sample.nodeTable = .ok h' ∧
    Mutator.Plays Mutator.Sample.program { heap := h } replies s ∧
    Mutator.Plays Mutator.Sample.program { heap := h' } replies' s' ∧
    Agrees Mutator.Sample.program { heap := h } { table := Mutator.Sample.nodeTable } ∧
    List.Forall₂ Alike replies replies' := by
  have hcovers : ∀ step ∈ Mutator.Sample.program, Covers step.1 = true := by decide
  obtain ⟨h, replies, s, hc, hp, -⟩ := Mutator.Sample.runs Mutator.Sample.session_small_isSome
  obtain ⟨h', replies', s', hc', hp', -⟩ := Mutator.Sample.runs
    (show (Mutator.Sample.session { inlineTails := true, padding := true }).isSome = true by
      decide +kernel)
  obtain ⟨hagrees, halike⟩ := refines Mutator.Sample.nodeTable Mutator.Sample.program hcovers
  have hp := Mutator.plays_of_play hp
  have hp' := Mutator.plays_of_play hp'
  exact ⟨h, h', s, s', replies, replies', hcovers, hc, hc', hp, hp', hagrees _ _ hc,
    (halike _ _ _ _ _ _ _ _ hc hc' hp hp').1⟩

end Programs

end Tenure.Ideal
