import Tenure.Mutator
import Tenure.Proofs.Creation
import Tenure.Proofs.Moves

/-!
# Sessions

A session is sound if its heap is, and if the reference in every register is valid until the next
collection. A program can only reach sound sessions: an instruction with a stale operand does not
run, so every reference that the heap is given is valid. Main statement: `Reaches.sound`.
-/

namespace Tenure.Mutator

/-- A heap has run out of room. -/
def Stop.IsExhausted : Stop → Prop
  | .fault e => e.IsExhausted
  | _ => False

/-- What holds of a session between two instructions. -/
structure Session.Sound (s : Session) (l : Census) : Prop where
  heap : s.heap.Sound l
  /-- What is in a register is valid, unless it is stale. -/
  registers : ∀ e ∈ s.registers, e.2.epochs = s.heap.epochs → ∀ a, e.2.value = some a →
    s.heap.Valid l a
  past : ∀ e ∈ s.registers, e.2.epochs ≤ s.heap.epochs

/-- The heap of the session has moved, and the registers are as they were. -/
structure Session.Goes (s : Session) (l : Census) (s' : Session) (l' : Census) : Prop where
  moves : s.heap.Moves l s'.heap l'
  registers : s'.registers = s.registers

/-- The heap of the session is exhausted. -/
def Session.Exhausts (s : Session) (e : Stop) (s' : Session) : Prop :=
  ∃ f, e = .fault f ∧ s.heap.Exhausts f s'.heap

/-- The step moves the heap unless it is exhausted, and the reference in its result, if there is
one, is valid. -/
def Safe {α : Type} (x : SessionM α) (reference? : α → Option Nat) (s : Session) (l : Census) :
    Prop :=
  Ends x s (fun r s' ↦ ∃ l', s.Goes l s' l' ∧ ∀ a, reference? r = some a → s'.heap.Valid l' a)
    (fun e s' ↦ s.Exhausts e s' ∨ ¬ e.IsExhausted ∧ ∃ l', s.Goes l s' l')

/-- Run a program, each instruction of which may name a register for its reply, and give the
replies. -/
def play : List (Instr × Option String) → SessionM (List Reply)
  | [] => return []
  | (instr, register) :: rest => do
    let reply ← run instr register
    return reply :: (← play rest)

/-- The program runs to its end with these replies. Nothing is known about the order in which the
remembered set is gone through, so that may change before every instruction. -/
inductive Plays : List (Instr × Option String) → Session → List Reply → Session → Prop
  | nil {s : Session} : Plays [] s [] s
  | cons {s s' s'' : Session} {h : Heap} {instr : Instr} {register : Option String}
    {rest : List (Instr × Option String)} {r : Reply} {replies : List Reply} :
    s.heap.Reordered h → run instr register { s with heap := h } = .ok r s' →
      Plays rest s' replies s'' → Plays ((instr, register) :: rest) s (r :: replies) s''

/-- A program that has run on a new heap may have got to this session. The census lists the objects
of each generation as they were allocated or promoted. The remembered set may be in any order at any
time. A program does not go on with an exhausted heap. -/
inductive Reaches (settings : Settings) (table : TypeTable) : Session → Census → Prop
  | start {h : Heap} : Heap.create settings table = .ok h → Reaches settings table { heap := h } {}
  | reply {s s' : Session} {l : Census} {instr : Instr} {register : Option String} {r : Reply} :
    Reaches settings table s l → run instr register s = .ok r s' →
      Reaches settings table s' (l.next s.heap s'.heap)
  | stop {s s' : Session} {l : Census} {instr : Instr} {register : Option String} {e : Stop} :
    Reaches settings table s l → run instr register s = .error e s' → ¬ e.IsExhausted →
      Reaches settings table s' (l.next s.heap s'.heap)
  | reorder {s : Session} {l : Census} {h : Heap} :
    Reaches settings table s l → s.heap.Reordered h → Reaches settings table { s with heap := h } l

variable {settings : Settings} {table : TypeTable} {s s' s'' : Session} {l l' : Census} {h' : Heap}
  {α β : Type} {op : HeapM α} {r : α → Option Nat} {r' : β → Option Nat}

private theorem Session.Goes.refl (hs : s.Sound l) : s.Goes l s l := ⟨.refl hs.heap, rfl⟩

/-- A session stays sound when its heap moves. -/
theorem Session.Sound.goes (hs : s.Sound l) (hg : s.Goes l s' l') : s'.Sound l' := by
  have hep := hg.moves.epochs
  refine ⟨hg.moves.sound, fun e he hq a ha ↦ ?_, fun e he ↦ ?_⟩ <;> rw [hg.registers] at he <;>
    have hp := hs.past e he
  · have heq : s'.heap.epochs = s.heap.epochs := by omega
    exact hg.moves.valid heq a (hs.registers e he (by omega) a ha)
  · omega

/-- What a session does outside its heap and its registers does not matter. -/
theorem Session.Goes.of_eq (hg : s.Goes l s' l') (hh : s''.heap = s'.heap)
    (hr : s''.registers = s'.registers) : s.Goes l s'' l' :=
  ⟨hh ▸ hg.moves, hr.trans hg.registers⟩

/-! ### Operands -/

section Operands

variable {k : Nat → SessionM β} {k' : Option Nat → SessionM β} {m : Root → SessionM β}

/-- What holds after an operation of the heap holds in the session. -/
theorem ends_onHeap {good : α → Heap → Prop} {bad : Fault → Heap → Prop}
    (h : Ends op s.heap good bad) :
    Ends (onHeap op) s (fun x s' ↦ good x s'.heap ∧ s' = { s with heap := s'.heap })
      (fun e s' ↦ ∃ f, e = .fault f ∧ bad f s'.heap ∧ s' = { s with heap := s'.heap }) := by
  unfold Ends at h ⊢
  unfold onHeap
  cases he : op s.heap with
  | ok x h' =>
    rw [he] at h
    simp only [he]
    exact ⟨h, trivial⟩
  | error f h' =>
    rw [he] at h
    simp only [he]
    exact ⟨f, rfl, h, trivial⟩

/-- To find a root by its number leaves the session as it is, and does not exhaust the heap. -/
theorem ends_rootOf {number : Nat} :
    Ends (rootOf number) s (fun _ s' ↦ s' = s) (fun e s' ↦ s' = s ∧ ¬ e.IsExhausted) := by
  unfold Ends rootOf
  cases s.roots.getD number none with
  | none => exact ⟨rfl, id⟩
  | some => rfl

/-- A register that is found is one of the session. -/
theorem mem_of_lookup {name : String} {register : Register}
    (hl : s.registers.lookup name = some register) : (name, register) ∈ s.registers := by
  obtain ⟨_, _, hsplit, -⟩ := List.lookup_eq_some_iff.mp hl
  rw [hsplit]
  exact List.mem_append_right _ (List.mem_cons_self ..)

/-- A register that is not stale holds a valid reference or null. -/
theorem ends_registerOf (hs : s.Sound l) (name : String) :
    Ends (registerOf name) s (fun v s' ↦ s' = s ∧ ∀ a, v = some a → s.heap.Valid l a)
      (fun e s' ↦ s' = s ∧ ¬ e.IsExhausted) := by
  unfold Ends registerOf
  cases hl : s.registers.lookup name with
  | none => exact ⟨rfl, id⟩
  | some reg =>
    obtain ⟨value, epochs⟩ := reg
    cases value with
    | none => exact ⟨rfl, by simp⟩
    | some a =>
      simp only
      split
      · next x s' he =>
        split at he
        · next hep =>
          cases he
          refine ⟨rfl, fun b hb ↦ ?_⟩
          cases hb
          exact hs.registers _ (mem_of_lookup hl) hep a rfl
        · cases he
      · next he =>
        split at he
        · cases he
        · cases he
          exact ⟨rfl, id⟩

/-- An operand stands for a valid reference or null, and looking it up changes nothing. -/
theorem ends_refOf (hs : s.Sound l) (o : Operand) :
    Ends (refOf o) s (fun v s' ↦ s' = s ∧ ∀ a, v = some a → s.heap.Valid l a)
      (fun e s' ↦ s' = s ∧ ¬ e.IsExhausted) := by
  cases o with
  | null => exact ⟨rfl, by simp⟩
  | register name => exact ends_registerOf hs name
  | root number =>
    rw [refOf]
    apply ends_rootOf.bind
    intro root s₁ he
    subst he
    refine ((ends_onHeap ((Heap.ends_rootAt hs.heap).and (Heap.tame_rootAt s₁.heap))).mono
      ?_ ?_).bind (q := fun a s' ↦ s' = s₁ ∧ s₁.heap.Valid l a) fun a s₂ ⟨he, hv⟩ ↦ ?_
    · rintro a s' ⟨⟨⟨hh, hv⟩, -⟩, he⟩
      rw [hh] at he
      exact ⟨he, hv⟩
    · rintro e s' ⟨f, rfl, ⟨hh, hn⟩, he⟩
      rw [hh] at he
      exact ⟨he, hn⟩
    · subst he
      exact ends_pure_iff.mpr ⟨rfl, fun b hb ↦ by cases hb; exact hv⟩

private theorem safe_refOf_bind (hs : s.Sound l) {o : Operand}
    (hk : ∀ v, (∀ a, v = some a → s.heap.Valid l a) → Safe (k' v) r' s l) :
    Safe (refOf o >>= k') r' s l := by
  refine ((ends_refOf hs o).mono (fun _ _ h ↦ h) fun e s' he ↦ ?_).bind fun v s' ⟨he, hv⟩ ↦ ?_
  · obtain ⟨rfl, hn⟩ := he
    exact .inr ⟨hn, l, .refl hs⟩
  · subst he
    exact hk v hv

private theorem safe_objectOf_bind (hs : s.Sound l) {o : Operand}
    (hk : ∀ a, s.heap.Valid l a → Safe (k a) r' s l) : Safe (objectOf o >>= k) r' s l := by
  rw [objectOf, bind_assoc]
  apply safe_refOf_bind hs
  intro v hv
  cases v with
  | none => exact .inr ⟨id, l, .refl hs⟩
  | some a => exact hk a (hv a rfl)

private theorem safe_rootOf_bind (hs : s.Sound l) {number : Nat}
    (hk : ∀ root, Safe (m root) r' s l) :
    Safe (rootOf number >>= m) r' s l := by
  refine (ends_rootOf.mono (fun _ _ h ↦ h) fun e s' he ↦ ?_).bind fun root s' he ↦ ?_
  · obtain ⟨rfl, hn⟩ := he
    exact .inr ⟨hn, l, .refl hs⟩
  · subst he
    exact hk root

end Operands

/-- An operation of the heap, and then what does not change the heap any more. -/
theorem safe_onHeap_bind {k : α → SessionM β} (hop : Heap.Safe op r s.heap l)
    (hk : ∀ x s', (∃ l', s'.heap.Sound l' ∧ ∀ a, r x = some a → s'.heap.Valid l' a) →
      Ends (k x) s'
        (fun y s'' ↦ s''.heap = s'.heap ∧ s''.registers = s'.registers ∧
          ∀ a, r' y = some a → r x = some a)
        (fun e s'' ↦ ¬ e.IsExhausted ∧ s''.heap = s'.heap ∧ s''.registers = s'.registers)) :
    Safe (onHeap op >>= k) r' s l := by
  have hgo : ∀ {s' : Session} {l'}, s.heap.Moves l s'.heap l' → s' = { s with heap := s'.heap } →
      s.Goes l s' l' := fun hm he ↦ ⟨hm, by rw [he]⟩
  refine ((ends_onHeap hop).mono (fun _ _ h ↦ h) ?_).bind fun x s' ⟨⟨l', hm, hv⟩, he⟩ ↦ ?_
  · rintro e s' ⟨f, rfl, hf, he⟩
    exact hf.imp (fun hx ↦ ⟨f, rfl, hx⟩) fun ⟨hn, l', hm⟩ ↦ ⟨hn, l', hgo hm he⟩
  · refine (hk x s' ⟨l', hm.sound, hv⟩).mono (fun y s'' ⟨hh, hr, hy⟩ ↦ ?_)
      fun e s'' ⟨hn, hh, hr⟩ ↦ ?_
    · refine ⟨l', (hgo hm he).of_eq hh hr, fun a ha ↦ ?_⟩
      rw [hh]
      exact hv a (hy a ha)
    · exact .inr ⟨hn, l', (hgo hm he).of_eq hh hr⟩

/-- An operation of the heap whose result becomes the reply. -/
theorem safe_onHeap_pure {f : α → β} (hop : Heap.Safe op r s.heap l)
    (hf : ∀ x a, r' (f x) = some a → r x = some a) :
    Safe (do return f (← onHeap op)) r' s l :=
  safe_onHeap_bind hop fun x _ _ ↦ ends_pure_iff.mpr ⟨rfl, rfl, hf x⟩

/-- An operation that changes nothing. -/
theorem ends_onHeap_unchanged (ht : Heap.Tame op)
    (hop : Ends op s.heap (fun _ h' ↦ h' = s.heap) (fun _ h' ↦ h' = s.heap)) :
    Ends (onHeap op) s (fun _ s' ↦ s' = s) (fun e s' ↦ ¬ e.IsExhausted ∧ s' = s) := by
  refine (ends_onHeap (hop.and (ht s.heap))).mono ?_ ?_
  · rintro x s' ⟨⟨hh, -⟩, he⟩
    rw [he, hh]
  · rintro e s' ⟨f, rfl, ⟨hh, hn⟩, he⟩
    exact ⟨hn, by rw [he, hh]⟩

/-! ### Instructions -/

/-- The reference that a program may keep of a reply, if it is not null. -/
def Reply.object? (reply : Reply) : Option Nat := reply.reference?.join

private theorem safe_allocated {op : HeapM Nat} (hop : Heap.Safe op some s.heap l) :
    Safe (do let a ← onHeap op; return .allocated a (← onHeap (Heap.describe a))) Reply.object? s
      l := by
  apply safe_onHeap_bind hop
  intro a s' _
  refine ((ends_onHeap_unchanged Heap.tame_describe Heap.ends_describe).mono (fun _ _ h ↦ h)
    ?_).bind fun d s'' he ↦ ends_pure_iff.mpr ?_
  · rintro e s'' ⟨hn, rfl⟩
    exact ⟨hn, rfl, rfl⟩
  · subst he
    exact ⟨rfl, rfl, fun b hb ↦ hb⟩

section Silent

variable {f : α → Reply} (hf : ∀ x, (f x).object? = none)
include hf

-- A reply without a reference gives the program nothing that it could keep.
private theorem safe_silent (hop : Heap.Safe op Heap.noReference s.heap l) :
    Safe (do return f (← onHeap op)) Reply.object? s l := by
  refine safe_onHeap_pure hop fun x a ha ↦ ?_
  rw [hf] at ha
  cases ha

-- An operation of the root stack without a reference in its reply.
private theorem safe_rooting (hs : s.Sound l) (ht : Heap.Tame op)
    (hop : Ends op s.heap (fun _ h' ↦ Heap.Rerooted s.heap l h')
      (fun _ h' ↦ Heap.Rerooted s.heap l h')) :
    Safe (do return f (← onHeap op)) Reply.object? s l :=
  safe_silent hf (.of_rerooted hs.heap ht (hop.imp fun _ _ hr ↦ ⟨hr, fun _ ha ↦ by cases ha⟩))

end Silent

/-- Every instruction is safe. -/
theorem safe_exec (hs : s.Sound l) (instr : Instr) : Safe (exec instr) Reply.object? s l := by
  have hh := hs.heap
  have hre : Heap.Rerooted s.heap l s.heap := .refl hh
  cases instr with
  | allocate tag size tail =>
    cases tail with
    | none => exact safe_allocated (Heap.safe_allocate hh)
    | some tail => exact safe_allocated (Heap.safe_allocateWith hh)
  | makeRoot object =>
    rw [exec]
    refine safe_objectOf_bind hs fun a hv ↦
      safe_onHeap_bind (r := Heap.noReference) (.of_rerooted hh Heap.tame_root ?_) fun root s' _ ↦
        ⟨rfl, rfl, fun b hb ↦ by cases hb⟩
    exact (Heap.ends_root hre hv).imp fun _ _ hr ↦ ⟨hr, fun _ hb ↦ by cases hb⟩
  | setRoot number object =>
    exact safe_objectOf_bind hs fun a hv ↦ safe_rootOf_bind hs fun root ↦
      safe_rooting (fun _ ↦ rfl) hs Heap.tame_setRootAt (Heap.ends_setRootAt hre hv)
  | releaseRoot number =>
    apply safe_rootOf_bind hs
    intro root
    have hsafe : Safe (do onHeap (Heap.releaseRoot root); return .done) Reply.object?
        { s with roots := s.roots.setIfInBounds number none } l :=
      safe_rooting (fun _ ↦ rfl) ⟨hs.heap, hs.registers, hs.past⟩ Heap.tame_releaseRoot
        (Heap.ends_releaseRoot hre)
    exact hsafe.mono (fun _ _ ⟨l', hg, hv⟩ ↦ ⟨l', ⟨hg.moves, hg.registers⟩, hv⟩)
      fun _ _ he ↦ he.imp id fun ⟨hn, l', hg⟩ ↦ ⟨hn, l', hg.moves, hg.registers⟩
  | push object =>
    exact safe_objectOf_bind hs fun a hv ↦
      safe_rooting (fun _ ↦ rfl) hs Heap.tame_pushRoot (Heap.ends_pushRoot hre hv)
  | pop =>
    refine safe_onHeap_pure (r := some) (.of_rerooted hh Heap.tame_popRoot ?_) fun x a ha ↦ ha
    exact (Heap.ends_popRoot hre).imp fun a _ ⟨hr, hv⟩ ↦ ⟨hr, fun b hb ↦ by cases hb; exact hv⟩
  | copy object => exact safe_refOf_bind hs fun v hv ↦ ⟨l, .refl hs, fun a ha ↦ hv a ha⟩
  | allocateUnder object count tag =>
    exact safe_objectOf_bind hs fun a hv ↦ safe_silent (fun _ ↦ rfl) (Heap.safe_withRoots hh hv)
  | prim object index =>
    exact safe_objectOf_bind hs fun a hv ↦ safe_silent (fun _ ↦ rfl) (Heap.safe_prim hh hv)
  | setPrim object index value =>
    exact safe_objectOf_bind hs fun a hv ↦ safe_silent (fun _ ↦ rfl) (Heap.safe_setPrim hh hv)
  | ptr object index =>
    exact safe_objectOf_bind hs fun a hv ↦ safe_onHeap_pure (Heap.safe_ptr hh hv) fun v b hb ↦ hb
  | setPtr object index value =>
    exact safe_objectOf_bind hs fun a hv ↦ safe_refOf_bind hs fun v hb ↦
      safe_silent (fun _ ↦ rfl) (Heap.safe_setPtr hh hv hb)
  | tailLength object =>
    exact safe_objectOf_bind hs fun a hv ↦ safe_silent (fun _ ↦ rfl) (Heap.safe_tailLength hh hv)
  | tailWord object index =>
    refine safe_objectOf_bind hs fun a hv ↦
      safe_onHeap_bind (Heap.safe_tailWord hh hv) fun w s' _ ↦ ?_
    refine ((ends_onHeap_unchanged Heap.tame_unitKind Heap.ends_unitKind_unchanged).mono
      (fun _ _ h ↦ h) ?_).bind fun kind s'' he ↦ ?_
    · rintro e s'' ⟨hn, rfl⟩
      exact ⟨hn, rfl, rfl⟩
    · subst he
      cases kind <;> exact ⟨rfl, rfl, fun b hb ↦ by cases hb⟩
  | setTailWord object index value =>
    exact safe_objectOf_bind hs fun a hv ↦ safe_silent (fun _ ↦ rfl) (Heap.safe_setTailWord hh hv)
  | tailPtr object index =>
    exact safe_objectOf_bind hs fun a hv ↦
      safe_onHeap_pure (Heap.safe_tailPtr hh hv) fun v b hb ↦ hb
  | setTailPtr object index value =>
    exact safe_objectOf_bind hs fun a hv ↦ safe_refOf_bind hs fun v hb ↦
      safe_silent (fun _ ↦ rfl) (Heap.safe_setTailPtr hh hv hb)
  | redirect object target =>
    exact safe_objectOf_bind hs fun a hv ↦ safe_objectOf_bind hs fun b hb ↦
      safe_silent (fun _ ↦ rfl) (Heap.safe_redirect hh hv hb)
  | validate object =>
    exact safe_objectOf_bind hs fun a hv ↦
      safe_onHeap_pure (Heap.safe_validate hh hv) fun x b hb ↦ hb
  | describe object =>
    exact safe_objectOf_bind hs fun a hv ↦ safe_silent (fun _ ↦ rfl) (Heap.safe_describe hh)
  | isYoung object =>
    exact safe_objectOf_bind hs fun a hv ↦
      safe_silent (fun _ ↦ rfl) (.of_reading hh (Heap.tame_ask _) rfl)
  | same first second =>
    exact safe_refOf_bind hs fun v _ ↦ safe_refOf_bind hs fun v' _ ↦
      ⟨l, .refl hs, fun a ha ↦ by cases ha⟩
  | minorCollection => exact safe_silent (fun _ ↦ rfl) (Heap.safe_collect hh)
  | majorCollection => exact safe_silent (fun _ ↦ rfl) (Heap.safe_majorCollection hh)
  | audit => exact safe_silent (fun _ ↦ rfl) (.of_reading hh Heap.tame_audit (ends_attempt _ _))

/-- A valid reference or null may be kept in a register. -/
theorem Session.Sound.keep (hs : s.Sound l) {name : String} {value : Option Nat}
    (hv : ∀ a, value = some a → s.heap.Valid l a) :
    Session.Sound
      { s with
        registers := (name, ⟨value, s.heap.statistics.minor⟩) ::
          s.registers.filter (·.1 ≠ name) } l := by
  refine ⟨hs.heap, fun e he hq a ha ↦ ?_, fun e he ↦ ?_⟩
  · rcases List.mem_cons.mp he with rfl | he
    · exact hv a ha
    · exact hs.registers e (List.mem_of_mem_filter he) hq a ha
  · rcases List.mem_cons.mp he with rfl | he
    · exact Nat.le_refl _
    · exact hs.past e (List.mem_of_mem_filter he)

/-- An instruction leads to a sound session, also if its reply is kept. -/
theorem ends_run (hs : s.Sound l) (instr : Instr) (register : Option String) :
    Ends (run instr register) s
      (fun _ s' ↦ ∃ l', s.heap.Moves l s'.heap l' ∧ s'.Sound l')
      (fun e s' ↦ s.Exhausts e s' ∨
        ¬ e.IsExhausted ∧ ∃ l', s.heap.Moves l s'.heap l' ∧ s'.Sound l') := by
  rw [run]
  refine ((safe_exec hs instr).mono (fun _ _ h ↦ h) ?_).bind fun reply s' ⟨l', hg, hv⟩ ↦ ?_
  · rintro e s' (he | ⟨hn, l', hg⟩)
    · exact .inl he
    · exact .inr ⟨hn, l', hg.moves, hs.goes hg⟩
  · have hs' := hs.goes hg
    have hskip : Ends (do (pure () : SessionM Unit); return reply) s'
        (fun _ s'' ↦ ∃ l', s.heap.Moves l s''.heap l' ∧ s''.Sound l')
        (fun e s'' ↦ s.Exhausts e s'' ∨
          ¬ e.IsExhausted ∧ ∃ l', s.heap.Moves l s''.heap l' ∧ s''.Sound l') :=
      ⟨l', hg.moves, hs'⟩
    cases register with
    | none => exact hskip
    | some name =>
      cases hr : reply.reference? with
      | none => exact hskip
      | some value =>
        refine ⟨l', hg.moves, hs'.keep fun a ha ↦ hv a ?_⟩
        rw [Reply.object?, hr, ha, Option.join_some]

/-- Another order of the remembered set keeps a session sound. -/
theorem Session.Sound.reordered (hs : s.Sound l) (ho : s.heap.Reordered h') :
    Session.Sound { s with heap := h' } l := by
  have hh := hs.heap.reordered ho
  rw [ho.heap] at hh ⊢
  exact ⟨hh, hs.registers, hs.past⟩

private theorem Session.Exhausts.isExhausted {e : Stop} (h : s.Exhausts e s') : e.IsExhausted := by
  obtain ⟨f, rfl, hf⟩ := h
  exact hf.1

/-- Programs only reach sound sessions, and there is headroom in all of them. -/
theorem Reaches.sound_and_headroom (hr : Reaches settings table s l) :
    s.Sound l ∧ s.heap.Headroom := by
  induction hr with
  | start hc => exact ⟨⟨Heap.sound_of_create hc, by simp, by simp⟩, Heap.headroom_of_create hc⟩
  | @reply s s' l instr register r hr he ih =>
    obtain ⟨hs, hroom⟩ := ih
    obtain ⟨l', hm, hs'⟩ := (ends_run hs instr register).of_eq_ok he
    rw [hm.follows.next_eq hs.heap hm.sound]
    exact ⟨hs', hm.headroom hroom⟩
  | @stop s s' l instr register e hr he hx ih =>
    obtain ⟨hs, hroom⟩ := ih
    -- The program does not go on with an exhausted heap, so the step was a move.
    obtain ⟨-, l', hm, hs'⟩ := ((ends_run hs instr register).of_eq_error he).resolve_left
      fun h ↦ hx h.isExhausted
    rw [hm.follows.next_eq hs.heap hm.sound]
    exact ⟨hs', hm.headroom hroom⟩
  | reorder _ ho ih => exact ⟨ih.1.reordered ho, ho.headroom ih.2⟩

/-- A session that can be reached is sound. -/
theorem Reaches.sound (hr : Reaches settings table s l) : s.Sound l := hr.sound_and_headroom.1

/-- A session that can be reached has headroom. -/
theorem Reaches.headroom (hr : Reaches settings table s l) : s.heap.Headroom :=
  hr.sound_and_headroom.2

/-- A program runs one instruction after the other. -/
theorem play_cons_eq_ok {instr : Instr} {register : Option String}
    {rest : List (Instr × Option String)} {replies : List Reply}
    (hp : play ((instr, register) :: rest) s = .ok replies s') :
    ∃ reply s₁ replies', run instr register s = .ok reply s₁ ∧
      play rest s₁ = .ok replies' s' ∧ replies = reply :: replies' := by
  simp only [play, bind, EStateM.bind] at hp
  split at hp
  · next reply s₁ he =>
    split at hp
    · next replies' s₂ hp' =>
      cases hp
      exact ⟨reply, s₁, replies', he, hp', rfl⟩
    · cases hp
  · cases hp

/-- One way to play a program is to leave the remembered set in its order. -/
theorem plays_of_play {program : List (Instr × Option String)} {replies : List Reply}
    (hp : play program s = .ok replies s') : Plays program s replies s' := by
  induction program generalizing s replies with
  | nil =>
    cases hp
    exact .nil
  | cons step rest ih =>
    obtain ⟨reply, s₁, replies', he, hp', rfl⟩ := play_cons_eq_ok hp
    exact .cons (.refl _) he (ih hp')

/-- A whole program may be run. -/
theorem Reaches.play {program : List (Instr × Option String)} {replies : List Reply}
    (hr : Reaches settings table s l) (hp : Mutator.play program s = .ok replies s') :
    ∃ l', Reaches settings table s' l' := by
  induction program generalizing s l replies with
  | nil =>
    cases hp
    exact ⟨l, hr⟩
  | cons step rest ih =>
    obtain ⟨reply, s₁, replies', he, hp', -⟩ := play_cons_eq_ok hp
    exact ih (hr.reply he) hp'

/-! ### A run -/

namespace Sample

/-- A type with a plain field, two reference fields and a tail of references. -/
def nodeTable : TypeTable :=
  .ofList [{ name := "node", prims := 1, ptrs := 2, isMutable := true, units := .refs }]

/-- Room for a few objects, and tails that move inline. -/
def smallSettings : Settings := { nurserySize := 256, semispaceSize := 512, compactTails := true }

/-- An old object with a cycle through itself, which refers to a young one by its tail in a block,
and a second old one that stands for the young one. -/
def program : List (Instr × Option String) :=
  [(.allocate 1 0 none, some "first"), (.makeRoot (.register "first"), none),
    (.setPtr (.root 0) 1 (.root 0), none), (.allocate 1 1 none, some "second"),
    (.makeRoot (.register "second"), none), (.minorCollection, none),
    (.allocate 1 2 none, some "third"), (.setTailPtr (.root 1) 0 (.register "third"), none),
    (.setPtr (.root 0) 0 (.root 1), none), (.redirect (.root 0) (.register "third"), none),
    (.setTailPtr (.root 0) 1 (.root 1), none), (.setPrim (.root 1) 0 7, none),
    (.prim (.root 1) 0, none), (.tailPtr (.root 1) 0, some "fourth")]

/-- Where a program ends. -/
def endOf (settings : Settings) (program : List (Instr × Option String)) : Option Session :=
  match Heap.create settings nodeTable with
  | .error _ => none
  | .ok heap =>
    match play program { heap } with
    | .error _ _ => none
    | .ok _ s => some s

/-- Where the program ends. -/
def session (settings : Settings) : Option Session := endOf settings program

variable {settings : Settings} {program : List (Instr × Option String)}

/-- A program that has an end gets there without a failure. -/
theorem runs_of_isSome (hs : (endOf settings program).isSome = true) :
    ∃ heap replies s, Heap.create settings nodeTable = .ok heap ∧
      play program { heap } = .ok replies s ∧ endOf settings program = some s := by
  obtain ⟨s, hs⟩ := Option.isSome_iff_exists.mp hs
  have he := hs
  unfold endOf at he
  split at he
  · cases he
  · next heap hc =>
    split at he
    · cases he
    · next replies s' hp =>
      cases he
      exact ⟨heap, replies, s, hc, hp, hs⟩

/-- A program that has run to its end has reached a session. -/
theorem reaches_of_isSome (hs : (endOf settings program).isSome = true) :
    ∃ s l, endOf settings program = some s ∧ Reaches settings nodeTable s l := by
  obtain ⟨heap, replies, s, hc, hp, hs⟩ := runs_of_isSome hs
  obtain ⟨l, hr⟩ := (Reaches.start hc).play hp
  exact ⟨s, l, hs, hr⟩

/-- The sample runs to its end on a new heap. -/
theorem runs (hs : (session settings).isSome = true) :
    ∃ heap replies s, Heap.create settings nodeTable = .ok heap ∧
      play Sample.program { heap } = .ok replies s ∧ session settings = some s := runs_of_isSome hs

/-- The sample runs to its end with few words. -/
theorem session_small_isSome : (session smallSettings).isSome = true := by decide +kernel

/-- The session after the sample can be reached. -/
theorem reaches : ∃ s l, session smallSettings = some s ∧ Reaches smallSettings nodeTable s l :=
  reaches_of_isSome session_small_isSome

end Sample

end Tenure.Mutator
