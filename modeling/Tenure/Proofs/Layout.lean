import Tenure.Proofs.Codec
import Tenure.Proofs.Effects

/-!
# The layout of new objects

The sizes of an allocation, the headers and the link that are written, the extents, the addresses
of the tail units and the offsets of the accessors are worked out in separate places. For a new
object they agree: no two of its parts share a word, all of them lie in the words of the allocation,
and extents lead from its first word to its last. Main statement: `footprint_laidOut`.
-/

namespace Tenure

namespace Footprint

/-- The address of the first tail unit of a new object at `a`. -/
def firstUnit (fp : Footprint) (a : Nat) : Nat :=
  match fp.tail with
  | .inline => a + 1 + fp.fields
  | .outOfLine => a + fp.ownerWords + 1

/-- The words of a new object at `a` that no program reads: its header, and for a tail in a block
the link and the block's header. -/
def hidden (fp : Footprint) (a : Nat) : List Nat :=
  a :: match fp.tail with
    | .inline => []
    | .outOfLine => [a + 1 + fp.fields, a + fp.ownerWords]

/-- The words of all parts of a new object at `a`: the hidden ones, then the plain fields, the
reference fields and the tail units. -/
def parts (fp : Footprint) (type : TypeInfo) (a : Nat) : List Nat :=
  fp.hidden a ++ (List.range' (a + 1) type.prims ++
    (List.range' (a + 1 + type.prims) type.ptrs ++ List.range' (fp.firstUnit a) fp.size))

/-- The spans of a new object at `a`, by the sizes of its allocation. -/
def spans (fp : Footprint) (a : Nat) : List Span :=
  ⟨a, fp.ownerWords⟩ :: match fp.tail with
    | .inline => []
    | .outOfLine => [⟨a + fp.ownerWords, fp.blockWords⟩]

end Footprint

/-- The memory holds an object of the type and of these sizes at `a`, and no two of its parts
overlap. -/
structure Memory.LaidOut (m : Memory) (table : TypeTable) (padding : Bool) (fp : Footprint)
    (type : TypeInfo) (a : Nat) : Prop where
  nodup : (fp.parts type a).Nodup
  inside : ∀ p ∈ fp.parts type a, a ≤ p ∧ p < a + fp.words
  form : m.form? table a = some ⟨fp.tag, fp.size, fp.tail, type⟩
  block : fp.tail = .outOfLine →
    Word.toRef? (m.read (a + 1 + fp.fields)) = some (a + fp.ownerWords) ∧
      m.form? table (a + fp.ownerWords) = some ⟨blockTag, fp.size, .inline, .tailBlock⟩
  unit : ∀ k < fp.size, m.unitAddr table a k = .ok (fp.firstUnit a + k)
  unitOutOfRange : ∀ k, fp.size ≤ k →
    m.unitAddr table a k = .error (.violation (.unitOutOfRange k fp.size))
  extent : m.extent table padding a = .ok fp.ownerWords
  blockExtent : fp.tail = .outOfLine →
    m.extent table padding (a + fp.ownerWords) = .ok fp.blockWords
  tiles : Tiles (fp.spans a) a (a + fp.words)
  /-- To walk by extents finds the object, then its block, and ends behind them. -/
  walk : ∀ fuel, fp.words ≤ fuel → m.spans table padding fuel a (a + fp.words) = fp.spans a

namespace Heap

/-- Each access to the object at `a` reads or writes the word of its part and no other. -/
structure Accessed (h : Heap) (fp : Footprint) (type : TypeInfo) (a : Nat) : Prop where
  tailLength : tailLength a h = .ok fp.size h
  prim : ∀ i < type.prims, prim a i h = .ok (h.memory.read (a + 1 + i)) h
  ptr : ∀ i < type.ptrs,
    ptr a i h = .ok (Word.toRef? (h.memory.read (a + 1 + type.prims + i))) h
  tailWord : ∀ k < fp.size, tailWord a k h = .ok (h.memory.read (fp.firstUnit a + k)) h
  tailPtr : type.units = .refs → ∀ k < fp.size,
    tailPtr a k h = .ok (Word.toRef? (h.memory.read (fp.firstUnit a + k))) h
  setPrim : h.Writable a type → ∀ i < type.prims, ∀ w,
    setPrim a i w h = .ok () { h with memory := h.memory.write (a + 1 + i) w }
  setPtr : h.Writable a type → ∀ i < type.ptrs, ∀ v, ∃ h', setPtr a i v h = .ok () h' ∧
    h'.memory = h.memory.write (a + 1 + type.prims + i) (Word.ofRef? (v.map h.memory.resolve))
  setTailWord : h.Writable a type → type.units = .words → ∀ k < fp.size, ∀ w,
    setTailWord a k w h = .ok () { h with memory := h.memory.write (fp.firstUnit a + k) w }
  setTailPtr : h.Writable a type → type.units = .refs → ∀ k < fp.size, ∀ v, ∃ h',
    setTailPtr a k v h = .ok () h' ∧
      h'.memory = h.memory.write (fp.firstUnit a + k) (Word.ofRef? (v.map h.memory.resolve))

end Heap

/-! ### The sizes -/

section Sizes

variable (f : Form) (padding : Bool) (a : Nat)

/-- The sizes of an allocation are even with padding. -/
theorem Form.footprint_even :
    (f.footprint true).ownerWords % 2 = 0 ∧ (f.footprint true).blockWords % 2 = 0 ∧
      (f.footprint true).words % 2 = 0 := by
  have howner : (f.footprint true).ownerWords % 2 = 0 :=
    (congrArg (· % 2) (f.words_eq true)).trans (padded_true _).1
  have hblock : (f.footprint true).blockWords % 2 = 0 := by
    simp only [footprint]
    cases f.tail with
    | inline => rfl
    | outOfLine => exact (padded_true _).1
  refine ⟨howner, hblock, ?_⟩
  simp only [Footprint.words]
  omega

private theorem Form.blockWords_footprint (h : f.tail = .outOfLine) :
    (f.footprint padding).blockWords = f.block.words padding := by
  simp only [footprint, h, words_block]

private theorem Form.spans_footprint : (f.footprint padding).spans a = f.spans padding a := by
  simp only [Footprint.spans, Form.spans, Form.footprint, Form.words_block]
  cases f.tail <;> rfl

/-- The tail units lie behind the fields, or behind the header of the block, and end where the
allocation does or before. -/
theorem Form.firstUnit_footprint :
    match f.tail with
    | .inline => (f.footprint padding).firstUnit a = a + 1 + f.type.fields ∧
        1 + f.type.fields + f.size ≤ (f.footprint padding).words
    | .outOfLine => (f.footprint padding).firstUnit a = a + f.words padding + 1 ∧
        2 + f.type.fields ≤ f.words padding ∧
        f.words padding + 1 + f.size ≤ (f.footprint padding).words := by
  have howner := f.used_le_words padding
  have hblock := f.block.used_le_words padding
  have hle := Memory.words_le_footprint f padding
  cases ht : f.tail with
  | inline =>
    simp only [Form.used, ht] at howner
    exact ⟨by simp only [Footprint.firstUnit, Form.footprint, ht], by omega⟩
  | outOfLine =>
    have hwords := Memory.words_footprint padding ht
    rw [f.used_block] at hblock
    simp only [Form.used, ht] at howner
    refine ⟨?_, by omega, by omega⟩
    simp only [Footprint.firstUnit, Form.footprint, ht]

private theorem Form.mem_hidden_footprint {p : Nat} : p ∈ (f.footprint padding).hidden a ↔
    p = a ∨ f.tail = .outOfLine ∧ (p = a + 1 + f.type.fields ∨ p = a + f.words padding) := by
  simp only [Footprint.hidden, Form.footprint]
  cases f.tail <;> simp

/-- Where each part lies. -/
theorem Form.mem_parts_footprint {p : Nat} : p ∈ (f.footprint padding).parts f.type a ↔
    (p = a ∨ f.tail = .outOfLine ∧ (p = a + 1 + f.type.fields ∨ p = a + f.words padding)) ∨
    (a + 1 ≤ p ∧ p < a + 1 + f.type.prims) ∨
    (a + 1 + f.type.prims ≤ p ∧ p < a + 1 + f.type.prims + f.type.ptrs) ∨
    ((f.footprint padding).firstUnit a ≤ p ∧ p < (f.footprint padding).firstUnit a + f.size) := by
  simp only [Footprint.parts, List.mem_append, List.mem_range'_1, Form.mem_hidden_footprint]
  exact Iff.rfl

private theorem Form.parts_inside {p : Nat} (hp : p ∈ (f.footprint padding).parts f.type a) :
    a ≤ p ∧ p < a + (f.footprint padding).words := by
  have hpos := f.words_pos padding
  have hle := Memory.words_le_footprint f padding
  have hunit := f.firstUnit_footprint padding a
  rw [Form.mem_parts_footprint] at hp
  cases ht : f.tail with
  | inline =>
    simp only [ht, reduceCtorEq, false_and, or_false, TypeInfo.fields] at hp hunit
    omega
  | outOfLine =>
    simp only [ht, true_and, TypeInfo.fields] at hp hunit
    omega

/-- No two parts share a word. -/
theorem Form.parts_nodup : ((f.footprint padding).parts f.type a).Nodup := by
  have hunit := f.firstUnit_footprint padding a
  have hfields : f.type.fields = f.type.prims + f.type.ptrs := rfl
  have hsize : (f.footprint padding).size = f.size := rfl
  have hhidden : ((f.footprint padding).hidden a).Nodup := by
    simp only [Footprint.hidden, Form.footprint]
    cases ht : f.tail with
    | inline => exact List.nodup_singleton a
    | outOfLine =>
      simp only [ht] at hunit
      simp only [List.nodup_cons, List.mem_cons, List.not_mem_nil, or_false, not_false_eq_true,
        List.nodup_nil, and_true]
      omega
  refine List.nodup_append'.mpr ⟨hhidden, List.nodup_append'.mpr ⟨List.nodup_range',
    List.nodup_append'.mpr ⟨List.nodup_range', List.nodup_range', ?units⟩, ?prims⟩, ?hidden⟩
  case units =>
    intro p hp hq
    rw [List.mem_range'_1] at hp hq
    cases ht : f.tail <;> simp only [ht] at hunit <;> omega
  case prims =>
    intro p hp hq
    simp only [List.mem_append, List.mem_range'_1] at hp hq
    cases ht : f.tail <;> simp only [ht] at hunit <;> omega
  case hidden =>
    intro p hp hq
    rw [Form.mem_hidden_footprint] at hp
    simp only [List.mem_append, List.mem_range'_1] at hq
    cases ht : f.tail <;>
      simp only [ht, reduceCtorEq, false_and, or_false, true_and] at hunit hp <;> omega

end Sizes

/-! ### The object -/

namespace Memory

variable {m : Memory} {table : TypeTable} {padding : Bool} {f : Form} {a : Nat}

section Vacant

variable (hv : m.Vacant [] a (f.footprint padding).words)
include hv

/-- The link of a new object refers to the block behind it. -/
theorem Vacant.toRef?_link (ht : f.tail = .outOfLine) :
    Word.toRef? (((f.footprint padding).place m a).read (a + 1 + f.type.fields)) =
      some (a + f.words padding) := by
  have hw := words_footprint padding ht
  have hb := f.block.words_pos padding
  rw [read_link_place hv ht]
  exact (hv.mapped (f.words padding) (by omega)).toRef?_ofAddr

private theorem Vacant.unitsAt_place : f.unitsAt ((f.footprint padding).place m a) a =
    (f.footprint padding).firstUnit a := by
  cases ht : f.tail with
  | inline => simp only [Form.unitsAt, Footprint.firstUnit, Form.footprint, ht]
  | outOfLine =>
    have haddr := Word.toAddr_of_toRef? (hv.toRef?_link ht)
    simp only [Form.unitsAt, Footprint.firstUnit, ht, haddr]
    simp only [Form.footprint, ht]

/-- The object and its block extend as far as they were allotted. -/
theorem Vacant.extent_place (ho : Allocatable table f) {s : Span} (hs : s ∈ f.spans padding a) :
    ((f.footprint padding).place m a).extent table padding s.start = .ok s.words := by
  simp only [Form.spans, List.mem_cons] at hs
  rcases hs with rfl | hs
  · exact extent_of_form? padding (direct_place hv ho).form?
  · cases ht : f.tail with
    | inline =>
      rw [ht] at hs
      cases hs
    | outOfLine =>
      simp only [ht, List.mem_singleton] at hs
      subst hs
      exact extent_of_form? padding (direct_place_block hv ho ht).form?

/-- What is placed in zeroed words is laid out. -/
theorem Vacant.laidOut (ho : Allocatable table f) :
    ((f.footprint padding).place m a).LaidOut table padding (f.footprint padding) f.type a := by
  have hform := (direct_place hv ho).form?
  have hblock : f.tail = .outOfLine → ((f.footprint padding).place m a).form? table
      (a + f.words padding) = some f.block := fun ht ↦ (direct_place_block hv ho ht).form?
  have hunit := unitAddr_of_form? (resolve_of_hop?_eq_none (hop?_of_form? hform)) hform
  rw [hv.unitsAt_place] at hunit
  constructor
  case nodup => exact f.parts_nodup padding a
  case inside => exact fun p ↦ f.parts_inside padding a
  case form => exact hform
  case block => exact fun ht ↦ ⟨hv.toRef?_link ht, hblock ht⟩
  case unit => exact fun k hk ↦ (hunit k).trans (if_pos hk)
  case unitOutOfRange => exact fun k hk ↦ (hunit k).trans (if_neg (Nat.not_lt.mpr hk))
  case extent => exact extent_of_form? padding hform
  case blockExtent =>
    intro ht
    rw [f.blockWords_footprint padding ht]
    exact extent_of_form? padding (hblock ht)
  case tiles =>
    rw [f.spans_footprint]
    exact f.tiles_spans padding a
  case walk =>
    intro fuel hfuel
    rw [f.spans_footprint]
    exact (f.tiles_spans padding a).spans_eq (by omega) fun s hs ↦ hv.extent_place ho hs

end Vacant

end Memory

/-! ### The accesses -/

namespace Heap

variable {h : Heap} {fp : Footprint} {type : TypeInfo} {a : Nat}

/-- A write to an object that is writable is not refused. -/
theorem needWritable_of_writable (hw : h.Writable a type) : needWritable a type h = .ok () h := by
  simp only [needWritable, ask, bind, EStateM.bind]
  rw [if_neg]
  · rfl
  · rcases hw with hw | hw <;> simp [hw]

/-- An object that is laid out is accessed as it is laid out. -/
theorem accessed {padding : Bool} (hl : h.memory.LaidOut h.table padding fp type a) :
    h.Accessed fp type a := by
  have hr := Memory.resolve_of_hop?_eq_none (Memory.hop?_of_form? hl.form)
  have hd : direct a h = .ok (a, type) h := by
    simp only [direct, attempt, hr, Memory.tag_of_form? hl.form, Memory.lookup_of_form? hl.form,
      bind, Except.bind, pure, Except.pure]
  have hu : ∀ k < fp.size, unitOf a k h = .ok (fp.firstUnit a + k) h := fun k hk ↦ by
    simp only [unitOf, attempt, hl.unit k hk]
  constructor
  case tailLength =>
    simp only [tailLength, bind, EStateM.bind, hd, Memory.size_of_form? hl.form, attempt]
  case prim =>
    intro i hi
    simp only [Heap.prim, bind, EStateM.bind, hd, if_neg (Nat.not_le.mpr hi), readWord, ask]
  case ptr =>
    intro i hi
    simp only [Heap.ptr, bind, EStateM.bind, hd, if_neg (Nat.not_le.mpr hi), readWord, ask, pure,
      EStateM.pure]
  case tailWord =>
    intro k hk
    simp only [Heap.tailWord, bind, EStateM.bind, hu k hk, readWord, ask]
  case tailPtr =>
    intro hk k hlt
    simp only [Heap.tailPtr, bind, EStateM.bind, hd, hk, ne_eq, not_true, if_false, hu k hlt,
      readWord, ask, pure, EStateM.pure]
  case setPrim =>
    intro hw i hi w
    simp only [Heap.setPrim, bind, EStateM.bind, hd, if_neg (Nat.not_le.mpr hi),
      needWritable_of_writable hw, writeWord, changeMemory]
  case setPtr =>
    intro hw i hi v
    refine ⟨h.barred _ a (v.map h.memory.resolve), ?_, rfl⟩
    simp only [Heap.setPtr, bind, EStateM.bind, hd, if_neg (Nat.not_le.mpr hi),
      needWritable_of_writable hw, resolved, ask, writeWord, changeMemory]
    exact writeBarrier_eq h _ _ _
  case setTailWord =>
    intro hw hk k hlt w
    simp only [Heap.setTailWord, bind, EStateM.bind, hd, hk, ne_eq, not_true, if_false,
      needWritable_of_writable hw, hu k hlt, writeWord, changeMemory]
  case setTailPtr =>
    intro hw hk k hlt v
    refine ⟨h.barred _ a (v.map h.memory.resolve), ?_, rfl⟩
    simp only [Heap.setTailPtr, bind, EStateM.bind, hd, hk, ne_eq, not_true, if_false,
      needWritable_of_writable hw, resolved, ask, hu k hlt, writeWord, changeMemory]
    exact writeBarrier_eq h _ _ _

end Heap

/-! ### All allocations -/

/-- For each type, size and layout, with padding or without it, an allocation has sizes, and they
are even with padding. If a header can hold the tag, then what is placed in zeroed words of these
sizes is laid out, and every access keeps to its layout; if not, its header is not made. -/
theorem TypeTable.footprint_laidOut {table : TypeTable} {tag size : Nat} {type : TypeInfo}
    (tail : TailLayout) (padding : Bool) (hb : tag ≠ blockTag) (ht : table.get? tag = some type)
    (hs : size ≤ maxTailSize) :
    ∃ fp, table.footprint tag size tail padding = .ok fp ∧
      fp.tag = tag ∧ fp.size = size ∧ fp.tail = tail ∧
      (padding = true →
        fp.ownerWords % 2 = 0 ∧ fp.blockWords % 2 = 0 ∧ fp.words % 2 = 0) ∧
      (maxTag < tag ∧
          Header.direct tag size tail = .error (.fatal (.encodingMisuse .tagTooLarge)) ∨
        Header.direct tag size tail = .ok (.pack tag size tail) ∧
        ∀ m a, (∀ i < fp.words, m.Mapped (a + i)) → (∀ i < fp.words, m.read (a + i) = 0) →
          (fp.place m a).LaidOut table padding fp type a ∧
          ∀ h : Heap, h.memory = fp.place m a → h.table = table → h.Accessed fp type a) := by
  have hf : table.footprint tag size tail padding = .ok _ :=
    TypeTable.footprint_eq_ok_iff.mpr ⟨type, hb, ht, hs, rfl⟩
  refine ⟨_, hf, rfl, rfl, rfl, ?_, ?_⟩
  · rintro rfl
    exact Form.footprint_even _
  · rw [Header.direct_eq]
    by_cases hlt : maxTag < tag
    · exact .inl ⟨hlt, by rw [if_pos hlt]; rfl⟩
    · refine .inr ⟨by rw [if_neg hlt, if_neg (Nat.not_lt.mpr hs)], fun m a hm hz ↦ ?_⟩
      have hv : m.Vacant [] a _ := ⟨hm, hz, fun _ h ↦ absurd h List.not_mem_nil⟩
      have ho : Memory.Allocatable table ⟨tag, size, tail, type⟩ :=
        ⟨ht, hb, Nat.le_of_not_lt hlt, hs⟩
      have hl := hv.laidOut ho
      refine ⟨hl, fun h hm ht ↦ ?_⟩
      subst ht
      rw [← hm] at hl
      exact Heap.accessed hl

/-- An object with three units in a block, with padding, in the only ten words of a memory. -/
theorem TypeTable.footprint_laidOut_sample : ∃ type fp m,
    Mutator.Sample.nodeTable.get? 1 = some type ∧
    Mutator.Sample.nodeTable.footprint 1 3 .outOfLine true = .ok fp ∧ fp.words = 10 ∧
    (fp.place m Memory.firstAddr).LaidOut Mutator.Sample.nodeTable true fp type
      Memory.firstAddr := by
  have ht : Mutator.Sample.nodeTable.get? 1 = some _ := rfl
  have hs : 3 ≤ maxTailSize := by decide
  obtain ⟨fp, hf, -, -, -, -, hl⟩ :=
    TypeTable.footprint_laidOut .outOfLine true (by decide) ht hs
  have hw : fp.words = 10 := by
    rw [Except.ok.inj (hf.symm.trans rfl)]
    rfl
  obtain ⟨m, hm⟩ : ∃ m, Memory.empty.extend? 10 = some m := ⟨_, dif_pos (by decide)⟩
  have hsize : m.size = 10 := by
    rw [Memory.extend?, dif_pos (by decide)] at hm
    rw [← Option.some.inj hm]
    rfl
  rcases hl with ⟨hlt, -⟩ | ⟨-, hl⟩
  · exact absurd hlt (by decide)
  · refine ⟨_, fp, m, rfl, hf, hw, (hl m Memory.firstAddr (fun i hi ↦ ?_) fun i hi ↦ ?_).1⟩
    · simp only [Memory.Mapped, Memory.endAddr]
      omega
    · rw [Memory.read_extend? hm]
      refine Memory.read_of_not_mapped fun hmapped ↦ ?_
      simp only [Memory.Mapped, Memory.endAddr, Memory.empty] at hmapped
      omega

end Tenure
