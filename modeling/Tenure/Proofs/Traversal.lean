import Mathlib.Data.Set.Card
import Std.Data.TreeSet.Lemmas
import Tenure.Heap.Audit
import Tenure.Proofs.Form

/-!
# Going through what references lead to

An audit keeps a list of references to visit, and each object that it has not seen before puts its
own references there. The slots that it goes on by are those of objects whose tags have types, so
it comes across an object just if the references lead there through such objects. Main statement:
`Navigable.countObjects`, a traversal ends, and it either comes across a tag without a type or gives
the number of objects.
-/

namespace Tenure

/-- An object has no more slots than the bound says. -/
theorem TypeTable.slots_le_slotBound {t : TypeTable} {tag size : Nat} {info : TypeInfo}
    (h : t.get? tag = some info) (hs : size ≤ maxTailSize) :
    info.ptrs + (1 + size) ≤ t.slotBound := by
  have hmax : ∀ (xs : List TypeInfo) (bound : Nat),
      bound ≤ xs.foldl (fun bound info ↦ max bound info.ptrs) bound ∧
      ∀ x ∈ xs, x.ptrs ≤ xs.foldl (fun bound info ↦ max bound info.ptrs) bound := by
    intro xs
    induction xs with
    | nil => intro bound; simp
    | cons x xs ih =>
      intro bound
      obtain ⟨hb, hx⟩ := ih (max bound x.ptrs)
      rw [List.foldl_cons, List.forall_mem_cons]
      exact ⟨by omega, by omega, hx⟩
  suffices hp : info.ptrs ≤ t.registered.foldl (fun bound info ↦ max bound info.ptrs) 0 by
    rw [slotBound]
    omega
  rw [← Array.foldl_toList]
  cases tag with
  | zero =>
    cases h
    exact Nat.zero_le _
  | succ n =>
    apply (hmax t.registered.toList 0).2
    rw [Array.mem_toList_iff]
    exact Array.mem_of_getElem? h

/-- An object holds no more references than the largest of its table has slots. -/
theorem Memory.length_refs_le {m : Memory} {table : TypeTable} {f : Form} {d : Nat}
    (hf : m.form? table d = some f) : ((f.slots d).refs m).length ≤ table.slotBound := by
  have hbound := TypeTable.slots_le_slotBound (form?_eq_some_iff.mp hf).2 (fits_of_form? hf).2
  have hlist : ((f.slots d).list m).length ≤ f.type.ptrs + (1 + f.size) := by
    rw [Slots.list, List.length_append, List.length_range']
    apply Nat.add_le_add_left
    cases ht : f.tail with
    | inline => cases hu : f.type.units <;> simp [Form.slots, ht, hu]
    | outOfLine =>
      simp only [Form.slots, ht, List.length_cons]
      split <;> simp only [List.length_nil, List.length_range'] <;> omega
  exact (List.length_filterMap_le _ _).trans (hlist.trans hbound)

namespace Memory

/-- The objects that the references in `starts` lead to. From an object whose tag has a type they
lead on by its reference fields, by the link to its block and by the references in its tail. -/
inductive Reachable (m : Memory) (table : TypeTable) (starts : List Nat) : Nat → Prop
  | start {a : Nat} : a ∈ starts → Reachable m table starts (m.resolve a)
  | slot {d a : Nat} {f : Form} {part : Part} : Reachable m table starts d →
      m.form? table d = some f → f.IsSlot part →
      Word.toRef? (m.read (f.cell m d part)) = some a → Reachable m table starts (m.resolve a)

/-- The reachable objects that are no blocks. -/
def reachableObjects (m : Memory) (table : TypeTable) (starts : List Nat) : Set Nat :=
  {d | m.Reachable table starts d ∧ (m.header d).tagBits ≠ blockTag}

/-- Chains of indirections end and links are not null, as far as the references lead, and that is
no further than `nodes`. -/
structure Navigable (m : Memory) (table : TypeTable) (starts : List Nat) (nodes : Finset Nat) :
    Prop where
  mem : ∀ d, m.Reachable table starts d → d ∈ nodes
  direct : ∀ d, m.Reachable table starts d → m.hop? d = none
  link : ∀ d f, m.Reachable table starts d → m.form? table d = some f → f.tail = .outOfLine →
    m.read (f.cell m d .link) ≠ Word.null

/-- Where a traversal stands that has visited the objects in `done`. -/
structure Walked (m : Memory) (table : TypeTable) (starts : List Nat) (done : Finset Nat)
    (seen : Std.TreeSet Nat) (pending : List Nat) (count : Nat) : Prop where
  contains_iff : ∀ d, seen.contains d = true ↔ d ∈ done
  reachable : ∀ d ∈ done, m.Reachable table starts d
  form : ∀ d ∈ done, ∃ f, m.form? table d = some f
  ahead : ∀ a ∈ pending, m.Reachable table starts (m.resolve a)
  /-- What is reached next is among what was visited or is about to be. -/
  start : ∀ a ∈ starts, m.resolve a ∈ done ∨ m.resolve a ∈ pending.map m.resolve
  slot : ∀ d ∈ done, ∀ f part a, m.form? table d = some f → f.IsSlot part →
    Word.toRef? (m.read (f.cell m d part)) = some a →
    m.resolve a ∈ done ∨ m.resolve a ∈ pending.map m.resolve
  count_eq : count = (done.filter fun d ↦ (m.header d).tagBits ≠ blockTag).card

/-- How a traversal ends: with the tag of a reachable object, if this has no type, or with the
number of reachable objects, if the tags of all of them have types. -/
def Audited (m : Memory) (table : TypeTable) (starts : List Nat) (r : Except Fault Nat) : Prop :=
  (∃ d, m.Reachable table starts d ∧ table.contains (m.header d).tagBits = false ∧
    r = .error (.fatal (.heapCorruption (m.header d).tagBits table.size))) ∨
  (∀ d, m.Reachable table starts d → table.contains (m.header d).tagBits = true) ∧
    (m.reachableObjects table starts).Finite ∧ r = .ok (m.reachableObjects table starts).ncard

variable {m : Memory} {table : TypeTable} {starts pending : List Nat} {done nodes : Finset Nat}
  {seen : Std.TreeSet Nat} {fuel count a d : Nat} {f : Form}

/-! ### One reference -/

/-- A reference to an object whose tag has a type. -/
theorem countObjects_of_form? (hf : m.form? table (m.resolve a) = some f) :
    m.countObjects table (fuel + 1) seen (a :: pending) count =
      if seen.contains (m.resolve a) then m.countObjects table fuel seen pending count
      else m.countObjects table fuel (seen.insert (m.resolve a))
        (((f.slots (m.resolve a)).refs m).reverse ++ pending)
        (if f.tag = blockTag then count else count + 1) := by
  simp only [countObjects, check_of_form? rfl hf, tag_of_form? hf, slots_of_form? hf, escalating,
    bind, Except.bind]

/-- A reference to an object whose tag has none. -/
theorem countObjects_of_not_contains (hd : m.hop? (m.resolve a) = none)
    (hc : table.contains (m.header (m.resolve a)).tagBits = false) :
    m.countObjects table (fuel + 1) seen (a :: pending) count =
      .error (.fatal (.heapCorruption (m.header (m.resolve a)).tagBits table.size)) := by
  simp only [countObjects, check_of_not_contains rfl hd hc, escalating, Fault.escalate, bind,
    Except.bind]

namespace Walked

/-- Nothing was visited yet. -/
theorem init (m : Memory) (table : TypeTable) (starts : List Nat) :
    m.Walked table starts ∅ ∅ starts.reverse 0 where
  contains_iff := by simp
  reachable := by simp
  form := by simp
  ahead := fun a ha ↦ .start (List.mem_reverse.mp ha)
  start := fun a ha ↦ .inr (List.mem_map_of_mem (List.mem_reverse.mpr ha))
  slot := by simp
  count_eq := rfl

variable (hw : m.Walked table starts done seen (a :: pending) count)
include hw

/-- A reference to an object that was visited is done with. -/
theorem skip (hd : m.resolve a ∈ done) : m.Walked table starts done seen pending count := by
  have hknown : ∀ {x}, x ∈ done ∨ x ∈ (a :: pending).map m.resolve →
      x ∈ done ∨ x ∈ pending.map m.resolve := by
    rintro x (h | h)
    · exact .inl h
    · rcases List.mem_cons.mp h with rfl | h
      · exact .inl hd
      · exact .inr h
  exact ⟨hw.contains_iff, hw.reachable, hw.form,
    fun b hb ↦ hw.ahead b (List.mem_cons_of_mem a hb), fun b hb ↦ hknown (hw.start b hb),
    fun d hm f part b hf hp hb ↦ hknown (hw.slot d hm f part b hf hp hb), hw.count_eq⟩

/-- An object that is visited puts its references before the others. -/
theorem visit (hn : m.Navigable table starts nodes) (hd : m.resolve a ∉ done)
    (hf : m.form? table (m.resolve a) = some f) :
    m.Walked table starts (insert (m.resolve a) done) (seen.insert (m.resolve a))
      (((f.slots (m.resolve a)).refs m).reverse ++ pending)
      (if f.tag = blockTag then count else count + 1) := by
  have hreach := hw.ahead a List.mem_cons_self
  -- The references of the object are those that its slots hold.
  have hrefs : ∀ b, b ∈ ((f.slots (m.resolve a)).refs m).reverse ↔
      ∃ part, f.IsSlot part ∧ Word.toRef? (m.read (f.cell m (m.resolve a) part)) = some b := by
    intro b
    rw [List.mem_reverse, Slots.refs, List.mem_filterMap]
    simp only [Form.mem_list_slots (hn.link _ f hreach hf)]
    constructor
    · rintro ⟨_, ⟨part, hp, rfl⟩, hb⟩
      exact ⟨part, hp, hb⟩
    · rintro ⟨part, hp, hb⟩
      exact ⟨_, ⟨part, hp, rfl⟩, hb⟩
  have hknown : ∀ {x}, x ∈ done ∨ x ∈ (a :: pending).map m.resolve →
      x ∈ insert (m.resolve a) done ∨
        x ∈ (((f.slots (m.resolve a)).refs m).reverse ++ pending).map m.resolve := by
    intro x hx
    simp only [List.map_cons, List.mem_cons] at hx
    rw [Finset.mem_insert, List.map_append, List.mem_append]
    tauto
  constructor
  · intro d
    rw [Std.TreeSet.contains_insert, Bool.or_eq_true, hw.contains_iff, Finset.mem_insert,
      beq_iff_eq, compare_eq_iff_eq, eq_comm]
  · intro d hm
    rcases Finset.mem_insert.mp hm with rfl | hm
    · exact hreach
    · exact hw.reachable d hm
  · intro d hm
    rcases Finset.mem_insert.mp hm with rfl | hm
    · exact ⟨f, hf⟩
    · exact hw.form d hm
  · intro b hb
    rcases List.mem_append.mp hb with hb | hb
    · obtain ⟨part, hp, hb⟩ := (hrefs b).mp hb
      exact .slot hreach hf hp hb
    · exact hw.ahead b (List.mem_cons_of_mem a hb)
  · exact fun b hb ↦ hknown (hw.start b hb)
  · intro d hm g part b hg hp hb
    rcases Finset.mem_insert.mp hm with rfl | hm
    · cases hf.symm.trans hg
      right
      apply List.mem_map_of_mem
      exact List.mem_append_left _ ((hrefs b).mpr ⟨part, hp, hb⟩)
    · exact hknown (hw.slot d hm g part b hg hp hb)
  · rw [Finset.filter_insert, tagBits_of_form? hf, hw.count_eq]
    by_cases hb : f.tag = blockTag
    · rw [if_pos hb, if_neg (not_not.mpr hb)]
    · rw [if_neg hb, if_pos hb, Finset.card_insert_of_notMem]
      exact fun h ↦ hd (Finset.mem_of_mem_filter _ h)

end Walked

/-- When no reference is left, everything was visited that can be reached. -/
theorem Walked.mem_iff (hw : m.Walked table starts done seen [] count) :
    d ∈ done ↔ m.Reachable table starts d := by
  refine ⟨hw.reachable d, fun hd ↦ ?_⟩
  induction hd with
  | start ha => simpa using hw.start _ ha
  | slot _ hf hp ha ih => simpa using hw.slot _ ih _ _ _ hf hp ha

private theorem Walked.audited (hw : m.Walked table starts done seen [] count) :
    m.Audited table starts (.ok count) := by
  refine .inr ⟨fun d hd ↦ ?_, ?_⟩
  · obtain ⟨f, hf⟩ := hw.form d (hw.mem_iff.mpr hd)
    rw [tagBits_of_form? hf]
    exact contains_of_form? hf
  · have hset : m.reachableObjects table starts =
        ↑(done.filter fun d ↦ (m.header d).tagBits ≠ blockTag) := by
      ext d
      simp [reachableObjects, hw.mem_iff]
    rw [hset, Set.ncard_coe_finset, hw.count_eq]
    exact ⟨Finset.finite_toSet _, rfl⟩

/-! ### The traversal -/

namespace Navigable

variable (hn : m.Navigable table starts nodes)
include hn

-- Every reference that is visited leaves one less to visit, or an object less that was not seen.
private theorem countObjects_walked (hw : m.Walked table starts done seen pending count)
    (hfuel : pending.length + (nodes.card - done.card) * table.slotBound ≤ fuel) :
    m.Audited table starts (m.countObjects table fuel seen pending count) := by
  -- Each step takes off a pending reference, and it adds some only for a node that is new.
  induction fuel generalizing done seen pending count with
  | zero =>
    obtain rfl := List.eq_nil_of_length_eq_zero (by omega : pending.length = 0)
    exact hw.audited
  | succ fuel ih =>
    cases pending with
    | nil => exact hw.audited
    | cons a pending =>
      have hreach := hw.ahead a List.mem_cons_self
      rw [List.length_cons] at hfuel
      cases hc : table.contains (m.header (m.resolve a)).tagBits with
      | false =>
        rw [countObjects_of_not_contains (hn.direct _ hreach) hc]
        exact .inl ⟨_, hreach, hc, rfl⟩
      | true =>
        obtain ⟨f, hf⟩ := exists_form?_of_contains (hn.direct _ hreach) hc
        rw [countObjects_of_form? hf]
        by_cases hd : m.resolve a ∈ done
        · rw [if_pos ((hw.contains_iff _).mpr hd)]
          apply ih (hw.skip hd)
          omega
        · rw [if_neg fun h ↦ hd ((hw.contains_iff _).mp h)]
          apply ih (hw.visit hn hd hf)
          have hcard : done.card + 1 ≤ nodes.card := by
            rw [← Finset.card_insert_of_notMem hd]
            apply Finset.card_le_card
            intro d hm
            rcases Finset.mem_insert.mp hm with rfl | hm
            · exact hn.mem _ hreach
            · exact hn.mem d (hw.reachable d hm)
          have hrefs := length_refs_le hf
          rw [List.length_append, List.length_reverse, Finset.card_insert_of_notMem hd]
          have hstep : (nodes.card - done.card) * table.slotBound =
              (nodes.card - (done.card + 1)) * table.slotBound + table.slotBound := by
            rw [← Nat.succ_mul]
            congr 1
            omega
          omega

/-- A traversal with enough fuel goes through everything that the references lead to. -/
theorem countObjects (hfuel : starts.length + nodes.card * table.slotBound ≤ fuel) :
    m.Audited table starts (m.countObjects table fuel ∅ starts.reverse 0) := by
  apply hn.countObjects_walked (.init m table starts)
  rw [List.length_reverse, Finset.card_empty, Nat.sub_zero]
  exact hfuel

end Navigable

end Memory

end Tenure
