import Tenure.Proofs.Soundness

/-!
# New heaps

A new heap has three regions of zeroed words, one behind the other. Main statement:
`sound_of_create`, a new heap is sound and holds no objects.
-/

namespace Tenure

variable {settings : Settings} {table : TypeTable} {h : Heap} {m m' : Memory} {r : Region}
  {n a : Nat}

/-- Where no memory is mapped, every word is zero. -/
theorem Memory.read_empty (a : Nat) : Memory.empty.read a = 0 := by
  unfold Memory.read
  split
  · rfl
  · exact Memory.empty.blank _ (Nat.zero_le _)

/-- A memory without objects is well-formed. -/
theorem Memory.WellFormed.nil {padding : Bool} : m.WellFormed table padding [] where
  apart := .nil
  nonempty := by simp
  mapped := by simp
  header := by simp
  extent := fun _ _ hf ↦ absurd hf.mem (by simp)
  blank := fun _ _ hf ↦ absurd hf.mem (by simp)
  reference := fun _ _ hf ↦ absurd hf.mem (by simp)
  block := fun _ _ hf ↦ absurd hf.mem (by simp)
  owner := fun _ _ _ _ hf ↦ absurd hf.mem (by simp)
  inline := fun _ _ hf ↦ absurd hf.mem (by simp)

/-- What reserving a region makes of a memory. -/
structure Region.Reserved (m : Memory) (n : Nat) (r : Region) (m' : Memory) : Prop where
  start : m.endAddr ≤ r.start
  capacity : r.capacity = n
  cursor : r.cursor = 0
  stop : r.start + n = m'.endAddr
  read : ∀ a, m'.read a = m.read a

private theorem Region.reserved_of_reserve (h : Region.reserve m n = .ok (r, m')) :
    Region.Reserved m n r m' := by
  unfold Region.reserve at h
  split at h
  · next m₁ he =>
    cases h
    split at he
    · refine ⟨Nat.le_add_right _ _, rfl, rfl, ?_, Memory.read_extend? he⟩
      simp only [Memory.extend?] at he
      split at he
      · cases he
        simp only [Memory.endAddr]
        omega
      · cases he
    · cases he
  · cases h

/-- The words of the region are mapped. -/
theorem Region.Reserved.mapped (h : Region.Reserved m n r m') {i : Nat} (hi : i < r.capacity) :
    m'.Mapped (r.start + i) := by
  have hs := h.start
  have hc := h.capacity
  have he := h.stop
  simp only [Memory.endAddr] at hs
  exact ⟨by omega, by omega⟩

/-- What was mapped before stays mapped. -/
theorem Region.Reserved.mapped_of_mapped (h : Region.Reserved m n r m') (ha : m.Mapped a) :
    m'.Mapped a := by
  have hs := h.start
  have he := h.stop
  exact ⟨ha.1, by have := ha.2; omega⟩

/-- No word of the region was mapped before. -/
theorem Region.Reserved.apart (h : Region.Reserved m n r m') {q : Region}
    (hr : q.start + q.capacity ≤ m.endAddr) :
    ∀ a, q.contains a = true → r.contains a = false := by
  intro a ha
  have hs := h.start
  rw [Region.mem_iff] at ha
  rw [← Bool.not_eq_true, Region.mem_iff]
  omega

namespace Heap

/-- A new heap consists of three regions and nothing else. -/
theorem eq_of_create (hc : create settings table = .ok h) :
    ∃ nursery active reserve m₁ m₂ m₃ events, settings.nurserySize ≤ settings.semispaceSize ∧
      Region.Reserved .empty (settings.nurserySize / wordBytes) nursery m₁ ∧
      Region.Reserved m₁ (settings.semispaceSize / wordBytes) active m₂ ∧
      Region.Reserved m₂ (settings.semispaceSize / wordBytes) reserve m₃ ∧
      h = { settings, table, memory := m₃, nursery := { region := nursery },
            semispace := { active, reserve }, events } := by
  unfold create layOut at hc
  simp only [bind, Except.bind, pure, Except.pure] at hc
  split at hc
  · cases hc
  · next hsize =>
    cases h₁ : Region.reserve .empty (settings.nurserySize / wordBytes) with
    | error e => simp [h₁] at hc
    | ok p₁ =>
    obtain ⟨nursery, m₁⟩ := p₁
    cases h₂ : Region.reserve m₁ (settings.semispaceSize / wordBytes) with
    | error e => simp [h₁, h₂] at hc
    | ok p₂ =>
    obtain ⟨active, m₂⟩ := p₂
    cases h₃ : Region.reserve m₂ (settings.semispaceSize / wordBytes) with
    | error e => simp [h₁, h₂, h₃] at hc
    | ok p₃ =>
    obtain ⟨reserve, m₃⟩ := p₃
    simp only [h₁, h₂, h₃, Except.ok.injEq] at hc
    exact ⟨nursery, active, reserve, m₁, m₂, m₃, _, Nat.le_of_not_lt hsize,
      Region.reserved_of_reserve h₁, Region.reserved_of_reserve h₂, Region.reserved_of_reserve h₃,
      hc.symm⟩

/-- A new heap has the types that it was made with. -/
theorem table_of_create (hc : create settings table = .ok h) : h.table = table := by
  obtain ⟨_, _, _, _, _, _, _, -, -, -, -, rfl⟩ := eq_of_create hc
  rfl

/-- A new heap has no roots. -/
theorem roots_of_create (hc : create settings table = .ok h) : h.roots = {} := by
  obtain ⟨_, _, _, _, _, _, _, -, -, -, -, rfl⟩ := eq_of_create hc
  rfl

/-- There is headroom in a new heap. -/
theorem headroom_of_create (hc : create settings table = .ok h) : h.Headroom := by
  obtain ⟨nursery, active, _, _, _, _, _, hsize, r₁, r₂, -, rfl⟩ := eq_of_create hc
  have hwords : settings.nurserySize / wordBytes ≤ settings.semispaceSize / wordBytes :=
    Nat.div_le_div_right hsize
  simp only [Headroom, Region.capacityBytes, Region.freeBytes, Region.free, r₁.capacity,
    r₂.capacity, r₂.cursor, Nat.sub_zero]
  exact Nat.mul_le_mul_right _ hwords

/-- A new heap is sound and holds no objects. -/
theorem sound_of_create (hc : create settings table = .ok h) : h.Sound {} := by
  obtain ⟨nursery, active, reserve, m₁, m₂, m₃, events, -, r₁, r₂, r₃, rfl⟩ := eq_of_create hc
  have hzero : ∀ a, m₃.read a = 0 := by
    intro a
    rw [r₃.read, r₂.read, r₁.read]
    exact Memory.read_empty a
  have h₁₂ := r₂.apart (q := nursery) (by rw [r₁.capacity, r₁.stop])
  have h₁₃ := r₃.apart (q := nursery) (by
    rw [r₁.capacity, r₁.stop]
    exact Nat.le_trans r₂.start (Nat.le.intro r₂.stop))
  have h₂₃ := r₃.apart (q := active) (by rw [r₂.capacity, r₂.stop])
  refine Spaced.sound ⟨?_, fun r hr i hi ↦ ?_, fun r _ i _ _ ↦ hzero _, r₃.cursor, ?_⟩
    r₁.cursor rfl rfl ?_ .nil (by simp [RootStack.toList])
  · exact Region.pairwise_apart_iff.mpr ⟨h₁₂, h₁₃, h₂₃⟩
  · simp only [regions, List.mem_cons, List.not_mem_nil, or_false] at hr
    rcases hr with rfl | rfl | rfl
    · exact r₃.mapped_of_mapped (r₂.mapped_of_mapped (r₁.mapped hi))
    · exact r₃.mapped_of_mapped (r₂.mapped hi)
    · exact r₃.mapped hi
  · simp only
    rw [r₃.capacity, r₂.capacity]
  · rw [tiles_nil]
    simp only
    rw [r₂.cursor, Nat.add_zero]

end Heap

end Tenure
