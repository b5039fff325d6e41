import Mathlib.Logic.Relation
import Tenure.Object.Tail
import Tenure.Proofs.Codec
import Tenure.Proofs.Pass.Frame

/-!
# Following indirections

An object is found, checked, described, accessed and evacuated through references that may begin a
chain of indirections. Each of these may go along the chain by a loop of its own, which looks at one
header after the other and stops at the first one that is direct. Main statement:
`LeadsIn.followed_alike`, all of them come to the end of the chain, whatever its length and wherever
its headers lie, and none of them takes anything from an indirection but its target.
-/

namespace Tenure

/-- The line on an object of this type, without marks. -/
def TypeInfo.line (info : TypeInfo) (size : Nat) (tail : TailLayout) : String :=
  s!"Node: {info.name}, prims: {info.prims}, ptrs: {info.ptrs}, " ++
    s!"tail: {tail.text}, size: {size}"

namespace Memory

/-- The header at `p` lies on the chain from `a`. -/
def OnChain (m : Memory) (a p : Nat) : Prop :=
  Relation.ReflTransGen (fun b c ↦ m.hop? b = some c) a p

/-! ### One header after the other -/

/-- The line on a direct object, if its tag has a type. -/
def line (m : Memory) (table : TypeTable) (d : Nat) : Except Fault String := do
  let h := m.header (← m.check table d)
  let info ← table.lookup (← h.tag)
  return info.line (← h.size) (← h.tail)

/-- Look for a direct header among the first `rounds` on the chain from `a`. -/
def resolveWithin (m : Memory) : (rounds a : Nat) → Option Nat
  | 0, _ => none
  | rounds + 1, a =>
    match (m.header a).decode with
    | .indirection target => m.resolveWithin rounds (Word.toAddr target)
    | .direct .. => some a

/-- Describe the object in the same way: an indirection adds its mark to the text, and the direct
header the line on its object. -/
def describeWithin (m : Memory) (table : TypeTable) :
    (rounds : Nat) → (text : String) → (a : Nat) → Option (Except Fault String)
  | 0, _, _ => none
  | rounds + 1, text, a =>
    match (m.header a).decode with
    | .indirection target => m.describeWithin table rounds (text ++ "IND ") (Word.toAddr target)
    | .direct .. => some ((m.line table a).map (text ++ ·))

end Memory

/-- Evacuate in the same way: the object of the direct header is copied if it lies in the source. -/
def Evacuation.evacuateWithin (e : Evacuation) :
    (rounds a : Nat) → CopyState → Option (EStateM.Result Fault CopyState Nat)
  | 0, _, _ => none
  | rounds + 1, a, st =>
    match (st.memory.header a).decode with
    | .indirection target => e.evacuateWithin rounds (Word.toAddr target) st
    | .direct tag size tail => some <|
      if e.source.contains a then e.copyObject a tag size tail st else .ok a st

/-! ### What is found -/

/-- On the chain that leads from `a` to `d` in `k` hops, the object at its end is found, checked,
described and accessed. -/
structure Memory.Finds (m : Memory) (table : TypeTable) (k a d : Nat) : Prop where
  resolve : m.resolve a = d
  resolveLoop : ∀ n, m.resolveWithin n a = if k < n then some (m.resolve a) else none
  check : m.check table a = if table.contains (m.header d).tagBits then .ok d
    else .error (.refused (.heapCorruption (m.header d).tagBits table.size))
  describe : m.describe table a =
    (m.describe table d).map (String.join (List.replicate k "IND ") ++ ·)
  /-- The description of the object alone has no marks. -/
  line : ∀ f, m.form? table d = some f → m.describe table d = .ok (f.type.line f.size f.tail)
  describes_iff : (∃ text, m.describe table a = .ok text) ↔ m.check table a = .ok d
  /-- A description fails as the check does. -/
  fails_iff : ∀ fault, m.describe table a = .error fault ↔ m.check table a = .error fault
  describeLoop : ∀ n,
    m.describeWithin table n "" a = if k < n then some (m.describe table a) else none
  tailStart : m.tailStart table a = m.tailStart table d
  unitAddr : ∀ i, m.unitAddr table a i = m.unitAddr table d i

/-- A pass evacuates the object at the end of the chain that leads from `a` to `d` in `k` hops. -/
structure Evacuation.Finds (e : Evacuation) (st : CopyState) (k a d : Nat) : Prop where
  outside : e.source.contains d = false → e.evacuate a st = .ok d st
  inside : e.source.contains d = true → e.evacuate a st = e.evacuate d st
  loop : ∀ n, e.evacuateWithin n a st = if k < n then some (e.evacuate a st) else none
  /-- Besides the words of the copy, no word changes but the header of the object. -/
  grew : Ends (e.evacuate a) st (fun _ ↦ st.Grew d) (fun _ st' ↦ st' = st)
  /-- No header on the chain changes but that of the object, as long as the words that the target
  has yet to hand out are zero. -/
  headers : (∀ i, st.target.cursor ≤ i → i < st.target.capacity →
      st.memory.read (st.target.start + i) = 0) →
    Ends (e.evacuate a) st
      (fun _ st' ↦ ∀ p, st.memory.OnChain a p → p ≠ d →
        st'.memory.header p = st.memory.header p)
      (fun _ st' ↦ st' = st)

namespace Memory

variable {m : Memory} {table : TypeTable} {f : Form} {k a b d p : Nat}

/-! ### Chains -/

/-- From everywhere on a chain it leads to the same end. -/
theorem Leads.of_onChain (h : m.Leads a d) (hp : m.OnChain a p) : m.Leads p d := by
  induction hp with
  | refl => exact h
  | tail _ hs ih => exact ih.of_hop hs

/-- Before its end a chain has indirections only. -/
theorem Leads.hop?_ne_none (h : m.Leads a d) (hp : m.OnChain a p) (hne : p ≠ d) :
    m.hop? p ≠ none := by
  obtain ⟨j, hj⟩ := h.of_onChain hp
  cases hj with
  | here => exact absurd rfl hne
  | hop hs _ => rw [hs]; simp

/-- A zero word is no indirection. -/
theorem read_ne_zero_of_hop? (h : m.hop? p ≠ none) : m.read p ≠ 0 := by
  intro hz
  apply h
  rw [hop?_eq_none_iff, Header.isIndirection, header, hz]
  rfl

/-- A chain of known length is a chain. -/
theorem LeadsIn.leads (h : m.LeadsIn k a d) : m.Leads a d := ⟨k, h⟩

/-- A hop is made from an indirection to its target. -/
theorem exists_decode_of_hop? (h : m.hop? a = some b) :
    ∃ target, (m.header a).decode = .indirection target ∧ Word.toAddr target = b := by
  unfold hop? at h
  split at h
  · next target hd => exact ⟨target, hd, Option.some.inj h⟩
  · cases h

private theorem decode_of_hop?_eq_none (h : m.hop? a = none) : (m.header a).decode =
    .direct (m.header a).tagBits (m.header a).sizeBits (m.header a).tailBits :=
  Header.decode_of_direct (hop?_eq_none_iff.mp h)

/-! ### Checks and descriptions -/

/-- An object passes the check if its tag has a type, and otherwise the tag is reported. -/
theorem Leads.check_eq (h : m.Leads a d) (table : TypeTable) :
    m.check table a = if table.contains (m.header d).tagBits then .ok d
      else .error (.refused (.heapCorruption (m.header d).tagBits table.size)) := by
  cases hc : table.contains (m.header d).tagBits with
  | true =>
    obtain ⟨f, hf⟩ := exists_form?_of_contains h.hop?_eq_none hc
    rw [check_of_form? h.resolve hf, if_pos rfl]
  | false => rw [check_of_not_contains h.resolve h.hop?_eq_none hc, if_neg Bool.false_ne_true]

/-- An object with a form is described by its form. -/
theorem line_of_form? (hf : m.form? table d = some f) :
    m.line table d = .ok (f.type.line f.size f.tail) := by
  have hself := resolve_of_hop?_eq_none (hop?_of_form? hf)
  simp only [line, check_of_form? hself hf, tag_of_form? hf, lookup_of_form? hf, size_of_form? hf,
    tail_of_form? hf, bind, Except.bind, pure, Except.pure]

/-- The line on an object is there if the object passes the check. -/
theorem map_line (hn : m.hop? d = none) :
    (m.line table d).map (fun _ ↦ d) = m.check table d := by
  have hself := resolve_of_hop?_eq_none hn
  cases hc : table.contains (m.header d).tagBits with
  | true =>
    obtain ⟨f, hf⟩ := exists_form?_of_contains hn hc
    rw [line_of_form? hf, check_of_form? hself hf]
    rfl
  | false =>
    simp only [line, check_of_not_contains hself hn hc, bind, Except.bind, Except.map]

/-- The description of an object has a mark for each hop on the way to it, and then the line. -/
theorem LeadsIn.describe_eq (h : m.LeadsIn k a d) : m.describe table a =
    (m.line table d).map (String.join (List.replicate k "IND ") ++ ·) := by
  have hn := h.leads.hop?_eq_none
  have hself := resolve_of_hop?_eq_none hn
  cases hc : table.contains (m.header d).tagBits with
  | true =>
    obtain ⟨f, hf⟩ := exists_form?_of_contains hn hc
    simp only [describe, h.chase, check_of_form? hself hf, line_of_form? hf, tag_of_form? hf,
      lookup_of_form? hf, size_of_form? hf, tail_of_form? hf, bind, Except.bind, pure,
      Except.pure, Except.map, TypeInfo.line, String.append_assoc, toString]
  | false =>
    simp only [describe, h.chase, line, check_of_not_contains hself hn hc, bind, Except.bind,
      Except.map]

/-- An object is described alone without marks. -/
theorem describe_eq_line (hn : m.hop? d = none) : m.describe table d = m.line table d := by
  rw [(LeadsIn.here hn).describe_eq, List.replicate_zero, String.join_nil]
  cases m.line table d <;> simp only [Except.map, String.empty_append]

/-- A description ends as the check does. -/
theorem LeadsIn.map_describe (h : m.LeadsIn k a d) :
    (m.describe table a).map (fun _ ↦ d) = m.check table a := by
  have hn := h.leads.hop?_eq_none
  rw [h.leads.check_eq, ← (Leads.here hn).check_eq, ← map_line hn, h.describe_eq]
  cases m.line table d <;> rfl

/-! ### Loops -/

/-- A loop that goes on at an indirection, with what it has by then, and stops at a direct header
takes as many rounds as there are headers on the chain. -/
theorem LeadsIn.loop_eq {σ α : Type} (loop : Nat → σ → Nat → Option α) (next : σ → σ)
    (result : σ → α) (h : m.LeadsIn k a d) (hzero : ∀ s b, loop 0 s b = none)
    (hhop : ∀ n s b c, m.hop? b = some c → loop (n + 1) s b = loop n (next s) c)
    (hend : m.hop? d = none → ∀ n s, loop (n + 1) s d = some (result s)) (n : Nat) (s : σ) :
    loop n s a = if k < n then some (result (next^[k] s)) else none := by
  induction h generalizing n s with
  | here hn =>
    cases n with
    | zero => exact hzero s _
    | succ n => rw [hend hn, if_pos (Nat.succ_pos n), Function.iterate_zero_apply]
  | hop hs _ ih =>
    cases n with
    | zero => exact hzero s _
    | succ n =>
      simp only [hhop n s _ _ hs, ih hend, Nat.add_lt_add_iff_right, Function.iterate_succ_apply]

/-- A chain resolves within a number of hops just if it is shorter. -/
theorem LeadsIn.resolveWithin_eq (h : m.LeadsIn k a d) (n : Nat) :
    m.resolveWithin n a = if k < n then some d else none := by
  refine h.loop_eq (fun n (_ : Unit) a ↦ m.resolveWithin n a) id (fun _ ↦ d) (fun _ _ ↦ rfl)
    (fun n _ b c hs ↦ ?_) (fun hn n _ ↦ ?_) n ()
  · obtain ⟨target, hd, rfl⟩ := exists_decode_of_hop? hs
    simp only [resolveWithin, hd]
  · simp only [resolveWithin, decode_of_hop?_eq_none hn]

-- Each round adds its mark behind the text, and so behind the marks of the rounds before.
private theorem iterate_append_mark (k : Nat) (text : String) :
    (· ++ "IND ")^[k] text = text ++ String.join (List.replicate k "IND ") := by
  induction k generalizing text with
  | zero => rw [Function.iterate_zero_apply, List.replicate_zero, String.join_nil,
      String.append_empty]
  | succ k ih => rw [Function.iterate_succ_apply, ih, List.replicate_succ, String.join_cons,
      String.append_assoc]

/-- A chain is described within a number of hops just if it is shorter, and then as its end is. -/
theorem LeadsIn.describeWithin_eq (h : m.LeadsIn k a d) (n : Nat) (text : String) :
    m.describeWithin table n text a =
      if k < n then some ((m.describe table a).map (text ++ ·)) else none := by
  have hloop := h.loop_eq (m.describeWithin table) (· ++ "IND ")
    (fun text ↦ (m.line table d).map (text ++ ·)) (fun _ _ ↦ rfl) (fun n text b c hs ↦ ?_)
    (fun hn n text ↦ ?_) n text
  · rw [hloop, iterate_append_mark, h.describe_eq]
    cases m.line table d <;> simp only [Except.map, String.append_assoc]
  · obtain ⟨target, hd, rfl⟩ := exists_decode_of_hop? hs
    simp only [describeWithin, hd]
  · simp only [describeWithin, decode_of_hop?_eq_none hn]

/-- What is done with a direct object is done with it through any chain that leads to it. -/
theorem LeadsIn.finds (h : m.LeadsIn k a d) (table : TypeTable) : m.Finds table k a d := by
  have hn := h.leads.hop?_eq_none
  have hself := resolve_of_hop?_eq_none hn
  refine ⟨h.leads.resolve, fun n ↦ ?_, h.leads.check_eq table, ?_, fun f hf ↦ ?_, ?_,
    fun fault ↦ ?_, fun n ↦ ?_, ?_, fun i ↦ ?_⟩
  · rw [h.resolveWithin_eq, h.leads.resolve]
  · rw [h.describe_eq, describe_eq_line hn]
  · rw [describe_eq_line hn, line_of_form? hf]
  · rw [← h.map_describe]
    cases m.describe table a <;> simp [Except.map]
  · rw [← h.map_describe]
    cases m.describe table a <;> simp [Except.map]
  · rw [h.describeWithin_eq]
    cases m.describe table a <;> simp only [Except.map, String.empty_append]
  · simp only [tailStart, h.leads.resolve, hself]
  · simp only [unitAddr, tailSize, tailStart, h.leads.resolve, hself]

end Memory

namespace Evacuation

variable {e : Evacuation} {st : CopyState} {k a d : Nat}

/-- A chain is evacuated within a number of hops just if it is shorter, and then as in full. -/
theorem evacuateWithin_eq (e : Evacuation) (h : st.memory.LeadsIn k a d) (n : Nat) :
    e.evacuateWithin n a st = if k < n then some (e.evacuate a st) else none := by
  refine h.loop_eq (fun n (_ : Unit) a ↦ e.evacuateWithin n a st) id (fun _ ↦ e.evacuate a st)
    (fun _ _ ↦ rfl) (fun n _ b c hs ↦ ?_) (fun hn n _ ↦ ?_) n ()
  · obtain ⟨target, hd, rfl⟩ := Memory.exists_decode_of_hop? hs
    simp only [evacuateWithin, hd]
  · simp only [evacuateWithin, Memory.decode_of_hop?_eq_none hn, evacuate, h.leads.resolve]

/-- Of the headers on a chain, a pass changes only the one at the end. -/
theorem ends_evacuate_header (e : Evacuation) (h : st.memory.Leads a d)
    (hz : ∀ i, st.target.cursor ≤ i → i < st.target.capacity →
      st.memory.read (st.target.start + i) = 0) :
    Ends (e.evacuate a) st
      (fun _ st' ↦ ∀ p, st.memory.OnChain a p → p ≠ d →
        st'.memory.header p = st.memory.header p)
      (fun _ st' ↦ st' = st) := by
  refine (e.ends_evacuate_grew a st).imp fun _ st' hg p hp hne ↦ ?_
  rw [h.resolve] at hg
  have hread := Memory.read_ne_zero_of_hop? (h.hop?_ne_none hp hne)
  have hle := st'.target.cursor_le
  rw [hg.capacity] at hle
  rw [Memory.header, Memory.header, hg.same p hne]
  -- The copy is made of words that were zero, and an indirection is not.
  rintro i hi hi' rfl
  exact hread (hz i hi (by omega))

private theorem finds (e : Evacuation) (h : st.memory.LeadsIn k a d) : e.Finds st k a d where
  outside := evacuate_of_leads h.leads
  inside := fun _ ↦ by
    simp only [evacuate, h.leads.resolve, Memory.resolve_of_hop?_eq_none h.leads.hop?_eq_none]
  loop := e.evacuateWithin_eq h
  grew := by
    have hg := e.ends_evacuate_grew a st
    rwa [h.leads.resolve] at hg
  headers := e.ends_evacuate_header h.leads

end Evacuation

namespace Memory

variable {m : Memory} {k a d : Nat}

/-- On a chain that leads to a direct object in any number of hops, all that follow references come
to that object, and they agree on it with a reference to the object itself. A description has a
mark for each hop, and a pass changes no header of the chain but that of the object. -/
theorem LeadsIn.followed_alike (h : m.LeadsIn k a d) :
    (∀ table, m.Finds table k a d) ∧
    ∀ (e : Evacuation) (st : CopyState), st.memory = m → e.Finds st k a d := by
  refine ⟨h.finds, fun e st hst ↦ ?_⟩
  subst hst
  exact e.finds h

/-- Three indirections lead to an object. The first and the last of them lie in the second eight
words, where an object may be copied to, and the others in the first eight. -/
def crossing : Memory :=
  ((((⟨{}, 16, by decide, fun i _ ↦ Pages.get_empty i⟩ : Memory).writeHeader (firstAddr + 3)
    (.pack 1 0 .inline)).redirect (firstAddr + 9) (firstAddr + 3)).redirect firstAddr
      (firstAddr + 9)).redirect (firstAddr + 8) firstAddr

/-- A pass that copies the object. -/
def crossingPass : Evacuation where
  table := .ofList [{ name := "pair", prims := 1, ptrs := 1 }]
  source := { start := firstAddr, capacity := 8, cursor := 6 }
  padding := false
  compact := false

/-- The state in which that pass begins. -/
def crossingState : CopyState where
  memory := crossing
  target := { start := firstAddr + 8, capacity := 8, cursor := 2 }

/-- The chain is followed to its end, and only the header there becomes an indirection to the
copy. -/
theorem followed_alike_sample :
    crossing.LeadsIn 3 (firstAddr + 8) (firstAddr + 3) ∧
    crossing.describe crossingPass.table (firstAddr + 8) =
      .ok "IND IND IND Node: pair, prims: 1, ptrs: 1, tail: Inline, size: 0" ∧
    crossing.Finds crossingPass.table 3 (firstAddr + 8) (firstAddr + 3) ∧
    crossingPass.Finds crossingState 3 (firstAddr + 8) (firstAddr + 3) ∧
    ∃ st, crossingPass.evacuate (firstAddr + 8) crossingState = .ok (firstAddr + 10) st ∧
      st.memory.hop? (firstAddr + 3) = some (firstAddr + 10) ∧
      ∀ p, crossing.OnChain (firstAddr + 8) p → p ≠ firstAddr + 3 →
        st.memory.header p = crossing.header p := by
  have h₀ : crossing.LeadsIn 0 (firstAddr + 3) (firstAddr + 3) := .here (by decide +kernel)
  have h₁ : crossing.LeadsIn 1 (firstAddr + 9) (firstAddr + 3) := .hop (by decide +kernel) h₀
  have h₂ : crossing.LeadsIn 2 firstAddr (firstAddr + 3) := .hop (by decide +kernel) h₁
  have h₃ : crossing.LeadsIn 3 (firstAddr + 8) (firstAddr + 3) := .hop (by decide +kernel) h₂
  have hz : ∀ i < 8, 2 ≤ i → crossing.read (firstAddr + 8 + i) = 0 := by decide +kernel
  obtain ⟨hm, he⟩ := h₃.followed_alike
  have hp := he crossingPass crossingState rfl
  exact ⟨h₃, rfl, hm _, hp, _, rfl, by decide +kernel,
    (hp.headers fun i hi hi' ↦ hz i hi' hi).of_eq_ok rfl⟩

end Memory

end Tenure
