import Mathlib.Data.Finset.Card
import Mathlib.Order.Interval.Finset.Nat
import Tenure.Object.Chain

/-!
# Where chains of indirections lead

`LeadsIn` says that a chain of indirections leads to a direct object in so many hops, with no bound
on their number. Main statement: `LeadsIn.chase`, following a chain that ends finds its end, since a
chain passes each word once and there are enough hops for all of them.
-/

namespace Tenure.Memory

variable {m : Memory} {a b d : Nat}

/-- The chain from `a` leads to the direct object at `d` in `k` hops. -/
inductive LeadsIn (m : Memory) : (k a d : Nat) → Prop
  | here {a : Nat} : m.hop? a = none → LeadsIn m 0 a a
  | hop {k a b d : Nat} : m.hop? a = some b → LeadsIn m k b d → LeadsIn m (k + 1) a d

/-- The chain from `a` ends in the direct object at `d`. -/
def Leads (m : Memory) (a d : Nat) : Prop := ∃ k, m.LeadsIn k a d

/-- Only a mapped word holds an indirection. -/
theorem mapped_of_hop? (h : m.hop? a = some b) : m.Mapped a := by
  by_contra hm
  simp only [hop?, header, read_of_not_mapped hm] at h
  revert h
  simp [Header.decode, Header.isIndirection]

/-- A chain has one length and one end. -/
theorem LeadsIn.unique {k j d' : Nat} (h : m.LeadsIn k a d) (h' : m.LeadsIn j a d') :
    k = j ∧ d = d' := by
  induction h generalizing j with
  | here hn =>
    cases h' with
    | here => exact ⟨rfl, rfl⟩
    | hop hs _ => rw [hn] at hs; cases hs
  | hop hs _ ih =>
    cases h' with
    | here hn => rw [hn] at hs; cases hs
    | hop hs' ht =>
      rw [hs] at hs'
      cases hs'
      obtain ⟨hk, hd⟩ := ih ht
      exact ⟨by rw [hk], hd⟩

-- The words of a chain are told apart by how far they are from its end.
private theorem LeadsIn.path {k : Nat} (h : m.LeadsIn k a d) :
    ∃ path : Finset Nat, path.card = k ∧
      ∀ x ∈ path, m.Mapped x ∧ ∃ j, 0 < j ∧ j ≤ k ∧ m.LeadsIn j x d := by
  induction h with
  | here => exact ⟨∅, rfl, by simp⟩
  | @hop k a b d hs ht ih =>
    obtain ⟨path, hc, hp⟩ := ih
    have ha : a ∉ path := by
      intro hm
      obtain ⟨_, j, _, hj, hl⟩ := hp a hm
      have := (hl.unique (.hop hs ht)).1
      omega
    refine ⟨insert a path, by rw [Finset.card_insert_of_notMem ha, hc], ?_⟩
    intro x hx
    rcases Finset.mem_insert.mp hx with rfl | hx
    · exact ⟨mapped_of_hop? hs, k + 1, by omega, Nat.le_refl _, .hop hs ht⟩
    · obtain ⟨hm, j, hj, hk, hl⟩ := hp x hx
      exact ⟨hm, j, hj, by omega, hl⟩

/-- A chain has no more hops than there are words. -/
theorem LeadsIn.le_size {k : Nat} (h : m.LeadsIn k a d) : k ≤ m.size := by
  obtain ⟨path, hc, hp⟩ := h.path
  have hs : path ⊆ Finset.Ico firstAddr m.endAddr := by
    intro x hx
    exact Finset.mem_Ico.mpr (hp x hx).1
  have := Finset.card_le_card hs
  rw [Nat.card_Ico, hc] at this
  simp only [endAddr] at this
  omega

private theorem LeadsIn.walk {k fuel : Nat} (h : m.LeadsIn k a d) (hf : k ≤ fuel) :
    m.walk 0 fuel a = (k, d) := by
  induction h generalizing fuel with
  | here hn =>
    cases fuel with
    | zero => rfl
    | succ fuel => simp only [Memory.walk, hn]
  | hop hs _ ih =>
    cases fuel with
    | zero => omega
    | succ fuel =>
      simp only [Memory.walk, hs]
      rw [walk_eq, ih (by omega), Nat.add_comm]

/-- Following a chain that ends finds its length and its end. -/
theorem LeadsIn.chase {k : Nat} (h : m.LeadsIn k a d) : m.chase a = (k, d) :=
  h.walk h.le_size

/-- A reference denotes what its chain leads to. -/
theorem Leads.resolve (h : m.Leads a d) : m.resolve a = d := by
  obtain ⟨k, h⟩ := h
  rw [Memory.resolve, h.chase]

/-- A direct object leads to itself. -/
theorem Leads.here (h : m.hop? a = none) : m.Leads a a := ⟨0, .here h⟩

/-- An indirection leads where its target leads. -/
theorem Leads.hop (h : m.hop? a = some b) (ht : m.Leads b d) : m.Leads a d := by
  obtain ⟨k, ht⟩ := ht
  exact ⟨k + 1, .hop h ht⟩

/-- The target of an indirection leads where the indirection leads. -/
theorem Leads.of_hop (h : m.Leads a d) (hs : m.hop? a = some b) : m.Leads b d := by
  obtain ⟨k, h⟩ := h
  cases h with
  | here hn => rw [hn] at hs; cases hs
  | @hop k _ _ _ hs' ht =>
    rw [hs'] at hs
    cases hs
    exact ⟨k, ht⟩

/-- A chain has one end. -/
theorem Leads.unique {d' : Nat} (h : m.Leads a d) (h' : m.Leads a d') : d = d' := by
  rw [← h.resolve, h'.resolve]

/-- Induction along a chain, from its end. -/
theorem Leads.induction {motive : Nat → Prop} (h : m.Leads a d)
    (here : m.hop? d = none → motive d)
    (hop : ∀ a b, m.hop? a = some b → m.Leads b d → motive b → motive a) : motive a := by
  obtain ⟨k, h⟩ := h
  induction h with
  | here hn => exact here hn
  | hop hs ht ih => exact hop _ _ hs ⟨_, ht⟩ (ih here hop)

/-- A chain ends in a direct object. -/
theorem Leads.hop?_eq_none (h : m.Leads a d) : m.hop? d = none :=
  h.induction (motive := fun _ ↦ m.hop? d = none) id fun _ _ _ _ ih ↦ ih

/-! ### What the words say -/

/-- A header that points to an address is an indirection to it. -/
theorem hop?_of_read {a t : Nat} (h : m.read a = (Header.forward (Word.ofAddr t)).word)
    (ht : t < addressLimit) : m.hop? a = some t := by
  have he : (Word.ofAddr t).toNat % 2 = 0 := by rw [Word.toNat_ofAddr ht]; omega
  have hd : (m.header a).decode = .indirection (Word.ofAddr t) := by
    have : m.header a = Header.forward (Word.ofAddr t) := by simp only [header, h]
    rw [this, Header.decode_forward he]
  simp only [hop?, hd, Word.toAddr_ofAddr ht]

/-- Where the header leads depends on its word only. -/
theorem hop?_congr {m' : Memory} (h : m'.read a = m.read a) : m'.hop? a = m.hop? a := by
  simp only [hop?, header, h]

end Tenure.Memory
