import Tenure.Object.Contents
import Tenure.Object.Layout
import Tenure.Object.Slots

/-!
# Forms of objects

The form of a direct object is what its header says together with the type of its tag. It decides
where the parts of the object lie: its plain fields, its reference fields, the link to its block and
its tail units. Main statements: slots, extent and contents of an object in terms of its form.
-/

namespace Tenure

/-- What the header of a direct object says, with the type of its tag. -/
structure Form where
  tag : Nat
  size : Nat
  tail : TailLayout
  type : TypeInfo
  deriving DecidableEq, Repr

/-- The form that a header gives to its object: an indirection gives none, nor does a tag without
a type. -/
def Header.form? (h : Header) (table : TypeTable) : Option Form :=
  match h.decode with
  | .indirection _ => none
  | .direct tag size tail => (table.get? tag).map fun type ↦ ⟨tag, size, tail, type⟩

/-- The form of the object at an address, if it is direct and has a type. -/
def Memory.form? (m : Memory) (table : TypeTable) (a : Nat) : Option Form :=
  (m.header a).form? table

/-- A part of an object, which is one word. -/
inductive Part
  | prim (i : Nat)
  | ptr (i : Nat)
  /-- The word that refers to the block. -/
  | link
  | unit (i : Nat)
  deriving DecidableEq, Repr

namespace Form

/-- Is the object a block, which holds the tail of another one? -/
def IsBlock (f : Form) : Prop := f.tag = blockTag

instance (f : Form) : Decidable f.IsBlock := inferInstanceAs (Decidable (_ = _))

/-- The header that says this. -/
def header (f : Form) : Header := .pack f.tag f.size f.tail

/-- The words of the object that hold something, its header included. -/
def used (f : Form) : Nat :=
  match f.tail with
  | .inline => 1 + f.type.fields + f.size
  | .outOfLine => 1 + f.type.fields + 1

/-- The words of the object. -/
def words (f : Form) (padding : Bool) : Nat := f.type.words f.size f.tail padding

/-- The slots of the object at `a`. -/
def slots (f : Form) (a : Nat) : Slots where
  firstPtr := a + 1 + f.type.prims
  ptrs := f.type.ptrs
  tail := match f.tail with
    | .outOfLine => .block (a + 1 + f.type.fields) f.size (f.type.units = .refs)
    | .inline => if f.type.units = .refs then .units (a + 1 + f.type.fields) f.size else .none

/-- The address of the first tail unit of the object at `a`. -/
def unitsAt (f : Form) (m : Memory) (a : Nat) : Nat :=
  match f.tail with
  | .inline => a + 1 + f.type.fields
  | .outOfLine => Word.toAddr (m.read (a + 1 + f.type.fields)) + 1

/-- The address of a part of the object at `a`. -/
def cell (f : Form) (m : Memory) (a : Nat) : Part → Nat
  | .prim i => a + 1 + i
  | .ptr i => a + 1 + f.type.prims + i
  | .link => a + 1 + f.type.fields
  | .unit i => f.unitsAt m a + i

/-- Does the object have the part? -/
def Has (f : Form) : Part → Prop
  | .prim i => i < f.type.prims
  | .ptr i => i < f.type.ptrs
  | .link => f.tail = .outOfLine
  | .unit i => i < f.size

/-- May the part hold a reference to an object that a program can name? -/
def Refers (f : Form) : Part → Prop
  | .prim _ => False
  | .ptr i => i < f.type.ptrs
  | .link => False
  | .unit i => i < f.size ∧ f.type.units = .refs

/-- Is the part a slot? -/
def IsSlot (f : Form) (part : Part) : Prop := f.Refers part ∨ part = .link ∧ f.tail = .outOfLine

/-- A part that holds a reference is there. -/
theorem Refers.has {f : Form} {part : Part} (h : f.Refers part) : f.Has part := by
  cases part with
  | prim i => exact h.elim
  | ptr i => exact h
  | link => exact h.elim
  | unit i => exact h.1

/-- A slot is there. -/
theorem IsSlot.has {f : Form} {part : Part} (h : f.IsSlot part) : f.Has part := by
  rcases h with h | ⟨rfl, h⟩
  · exact h.has
  · exact h

/-- The slots are the reference fields, the link and the units that hold references. -/
theorem isSlot_iff {f : Form} {part : Part} : f.IsSlot part ↔
    (∃ i, i < f.type.ptrs ∧ part = .ptr i) ∨ (f.tail = .outOfLine ∧ part = .link) ∨
      (f.type.units = .refs ∧ ∃ i, i < f.size ∧ part = .unit i) := by
  cases part with
  | prim i => simp [IsSlot, Refers]
  | ptr i => simp [IsSlot, Refers]
  | link => simp [IsSlot, Refers]
  | unit i => simp [IsSlot, Refers, and_comm]

/-- An object has a word for its header and for each used word, and at most one more. -/
theorem words_eq (f : Form) (padding : Bool) : f.words padding = padded padding f.used := by
  obtain ⟨tag, size, tail, type⟩ := f
  cases tail <;> rfl

/-- The used words are words of the object. -/
theorem used_le_words (f : Form) (padding : Bool) : f.used ≤ f.words padding := by
  rw [words_eq]
  exact le_padded _ _

/-- The header is always used. -/
theorem used_pos (f : Form) : 0 < f.used := by
  obtain ⟨tag, size, tail, type⟩ := f
  cases tail <;> simp only [used] <;> omega

/-- An object takes at least one word. -/
theorem words_pos (f : Form) (padding : Bool) : 0 < f.words padding :=
  f.type.words_pos f.size f.tail padding

/-- The header and the fields are among the used words. -/
theorem fields_lt_used (f : Form) : f.type.fields < f.used := by
  obtain ⟨tag, size, tail, type⟩ := f
  cases tail <;> simp only [used] <;> omega

end Form

namespace Memory

variable {m m' : Memory} {table : TypeTable} {a : Nat} {f : Form}

/-- A form is a direct header whose tag has a type. -/
theorem form?_eq_some_iff : m.form? table a = some f ↔
    (m.header a).decode = .direct f.tag f.size f.tail ∧ table.get? f.tag = some f.type := by
  simp only [form?, Header.form?]
  cases hd : (m.header a).decode with
  | indirection t => simp
  | direct tag size tail =>
    simp only [Option.map_eq_some_iff, Header.Meaning.direct.injEq]
    constructor
    · rintro ⟨type, ht, rfl⟩
      exact ⟨⟨rfl, rfl, rfl⟩, ht⟩
    · rintro ⟨⟨rfl, rfl, rfl⟩, ht⟩
      exact ⟨f.type, ht, rfl⟩

/-- The form depends on the header only. -/
theorem form?_congr (h : m'.read a = m.read a) : m'.form? table a = m.form? table a := by
  simp only [form?, header, h]

/-- An object with a form is direct. -/
theorem hop?_of_form? (h : m.form? table a = some f) : m.hop? a = none := by
  simp only [hop?, (form?_eq_some_iff.mp h).1]

/-- A direct object has a form if its tag has a type. -/
theorem exists_form?_of_contains (hd : m.hop? a = none)
    (hc : table.contains (m.header a).tagBits = true) : ∃ f, m.form? table a = some f := by
  obtain ⟨info, hi⟩ := Option.isSome_iff_exists.mp ((table.isSome_get? _).trans hc)
  have hdir := hop?_eq_none_iff.mp hd
  refine ⟨⟨(m.header a).tagBits, (m.header a).sizeBits, (m.header a).tailBits, info⟩,
    form?_eq_some_iff.mpr ⟨?_, hi⟩⟩
  simp only [Header.decode, hdir, Bool.false_eq_true, if_false]

/-- The fields of a direct header are those that it says. -/
theorem direct_fields {h : Header} {tag size : Nat} {tail : TailLayout}
    (hd : h.decode = .direct tag size tail) :
    h.isIndirection = false ∧ h.tagBits = tag ∧ h.sizeBits = size ∧ h.tailBits = tail := by
  unfold Header.decode at hd
  split at hd
  · cases hd
  · next hi =>
    cases hd
    exact ⟨by simpa using hi, rfl, rfl, rfl⟩

/-- An object with a form has a direct header. -/
theorem isIndirection_of_form? (h : m.form? table a = some f) :
    (m.header a).isIndirection = false := (direct_fields (form?_eq_some_iff.mp h).1).1

/-- The tag bits are those of the form. -/
theorem tagBits_of_form? (h : m.form? table a = some f) : (m.header a).tagBits = f.tag :=
  (direct_fields (form?_eq_some_iff.mp h).1).2.1

/-- The size bits are those of the form. -/
theorem sizeBits_of_form? (h : m.form? table a = some f) : (m.header a).sizeBits = f.size :=
  (direct_fields (form?_eq_some_iff.mp h).1).2.2.1

/-- The layout bit is that of the form. -/
theorem tailBits_of_form? (h : m.form? table a = some f) : (m.header a).tailBits = f.tail :=
  (direct_fields (form?_eq_some_iff.mp h).1).2.2.2

/-- The tag can be read, and is that of the form. -/
theorem tag_of_form? (h : m.form? table a = some f) : (m.header a).tag = .ok f.tag := by
  simp only [Header.tag, Header.needDirect, isIndirection_of_form? h, tagBits_of_form? h]
  rfl

/-- The size can be read, and is that of the form. -/
theorem size_of_form? (h : m.form? table a = some f) : (m.header a).size = .ok f.size := by
  simp only [Header.size, Header.needDirect, isIndirection_of_form? h, sizeBits_of_form? h]
  rfl

/-- The layout can be read, and is that of the form. -/
theorem tail_of_form? (h : m.form? table a = some f) : (m.header a).tail = .ok f.tail := by
  simp only [Header.tail, Header.needDirect, isIndirection_of_form? h, tailBits_of_form? h]
  rfl

/-- The type of the form is the one that the table holds for its tag. -/
theorem lookup_of_form? (h : m.form? table a = some f) : table.lookup f.tag = .ok f.type := by
  simp only [TypeTable.lookup, (form?_eq_some_iff.mp h).2]

/-- The table knows the tag of a form. -/
theorem contains_of_form? (h : m.form? table a = some f) : table.contains f.tag = true := by
  rw [← table.isSome_get?, (form?_eq_some_iff.mp h).2, Option.isSome_some]

/-- An object whose tag has a type passes the check. -/
theorem check_of_form? {b : Nat} (hr : m.resolve b = a) (h : m.form? table a = some f) :
    m.check table b = .ok a := by
  simp only [check, hr, tag_of_form? h, contains_of_form? h, bind, Except.bind, pure, Except.pure,
    if_true]

/-- Of an object whose tag has none the check reports the tag. -/
theorem check_of_not_contains {b : Nat} (hr : m.resolve b = a) (hd : m.hop? a = none)
    (hc : table.contains (m.header a).tagBits = false) :
    m.check table b = .error (.refused (.heapCorruption (m.header a).tagBits table.size)) := by
  have hi := hop?_eq_none_iff.mp hd
  simp [check, hr, Header.tag, Header.needDirect, hi, hc, bind, Except.bind, pure, Except.pure,
    throw, throwThe, MonadExceptOf.throw]

/-- The header word of an object is the encoding of its form. -/
theorem read_of_form? (h : m.form? table a = some f) : m.read a = f.header.word := by
  have he := Header.encode_decode (m.header a)
  rw [(form?_eq_some_iff.mp h).1] at he
  simp only [Header.Meaning.encode] at he
  rw [Form.header, he]
  rfl

/-- A word that encodes a form with a type gives that form. -/
theorem form?_of_read (h : m.read a = f.header.word) (ht : f.tag ≤ maxTag)
    (hs : f.size ≤ maxTailSize) (hf : table.get? f.tag = some f.type) :
    m.form? table a = some f := by
  refine form?_eq_some_iff.mpr ⟨?_, hf⟩
  rw [← Header.decode_pack f.tail ht hs, header, h]
  rfl

/-- The fields of a form fit a header. -/
theorem fits_of_form? (h : m.form? table a = some f) : f.tag ≤ maxTag ∧ f.size ≤ maxTailSize := by
  rw [← tagBits_of_form? h, ← sizeBits_of_form? h]
  exact ⟨(m.header a).tagBits_le, (m.header a).sizeBits_le⟩

/-- The slots of an object are those of its form. -/
theorem slots_of_form? (h : m.form? table a = some f) : m.slots table a = .ok (f.slots a) := by
  simp only [slots, tag_of_form? h, lookup_of_form? h, size_of_form? h, tail_of_form? h, bind,
    Except.bind, pure, Except.pure, Form.slots]
  cases f.tail <;> simp

/-- An indirection has no slots. -/
theorem slots_of_hop?_ne_none (table : TypeTable) (h : m.hop? a ≠ none) :
    m.slots table a = .error (.fatal (.encodingMisuse (.fieldOfIndirection .tag))) := by
  have hi : (m.header a).isIndirection = true := by
    rwa [Ne, hop?_eq_none_iff, Bool.not_eq_false] at h
  simp [slots, Header.tag, Header.needDirect, hi, Header.misuse, bind, Except.bind]

/-- The extent of an object is that of its form. -/
theorem extent_of_form? (padding : Bool) (h : m.form? table a = some f) :
    m.extent table padding a = .ok (f.words padding) := by
  simp only [extent, tag_of_form? h, lookup_of_form? h, size_of_form? h, tail_of_form? h, bind,
    Except.bind, pure, Except.pure, Form.words]

/-- The address of a unit, if there is one of that number. -/
theorem unitAddr_of_form? {b : Nat} (hr : m.resolve b = a) (h : m.form? table a = some f)
    (k : Nat) :
    m.unitAddr table b k = if k < f.size then .ok (f.unitsAt m a + k)
      else .error (.violation (.unitOutOfRange k f.size)) := by
  have hstart : m.tailStart table b = .ok (f.unitsAt m a) := by
    simp only [tailStart, hr, tag_of_form? h, lookup_of_form? h, tail_of_form? h, bind,
      Except.bind, Form.unitsAt]
    cases f.tail <;> rfl
  simp only [unitAddr, tailSize, hr, size_of_form? h, bind, Except.bind, hstart]
  by_cases hk : k < f.size
  · rw [if_pos hk, if_neg (Nat.not_le.mpr hk)]
    rfl
  · rw [if_neg hk, if_pos (Nat.not_lt.mp hk)]
    rfl

/-- The contents of an object, part by part. -/
theorem contents?_of_form? (h : m.form? table a = some f) (hb : ¬ f.IsBlock) :
    m.contents? table a = some {
      prims := m.wordsAt (a + 1) f.type.prims
      ptrs := m.refsAt (a + 1 + f.type.prims) f.type.ptrs
      units := match f.type.units with
        | .words => .words (m.wordsAt (f.unitsAt m a) f.size)
        | .refs => .refs (m.refsAt (f.unitsAt m a) f.size) } := by
  have ht := (form?_eq_some_iff.mp h).2
  simp only [Form.IsBlock] at hb
  cases htail : f.tail <;> cases hunits : f.type.units <;>
    simp only [contents?, tagBits_of_form? h, sizeBits_of_form? h, tailBits_of_form? h, if_neg hb,
      ht, Form.unitsAt, htail, hunits]

end Memory

namespace Form

variable {f : Form} {m : Memory} {a p : Nat} {part : Part}

/-- The slot parts behind the fields. -/
def tailParts (f : Form) : List Part :=
  (match f.tail with
    | .inline => []
    | .outOfLine => [.link]) ++
  match f.type.units with
    | .words => []
    | .refs => (List.range f.size).map .unit

/-- The slot parts in the order in which they are visited. -/
def slotParts (f : Form) : List Part := (List.range f.type.ptrs).map .ptr ++ f.tailParts

/-- The list of the slot parts has just the slots. -/
theorem mem_slotParts : part ∈ f.slotParts ↔ f.IsSlot part := by
  rw [isSlot_iff, slotParts, tailParts, List.mem_append, List.mem_append, List.mem_map]
  refine or_congr ?_ (or_congr ?_ ?_)
  · simp only [List.mem_range, eq_comm]
  · cases f.tail <;> simp
  · cases f.type.units <;> simp [eq_comm]

/-- The slots of an object are its slot parts, if the word for its block is not null. -/
theorem list_slots (hl : f.tail = .outOfLine → m.read (f.cell m a .link) ≠ Word.null) :
    (f.slots a).list m = f.slotParts.map (f.cell m a) := by
  have hrange : ∀ base n (parts : Nat → Part), (∀ i, f.cell m a (parts i) = base + i) →
      ((List.range n).map parts).map (f.cell m a) = List.range' base n := by
    intro base n parts hp
    rw [List.map_map, List.range'_eq_map_range]
    exact List.map_congr_left fun i _ ↦ hp i
  rw [Slots.list, slotParts, tailParts, List.map_append, List.map_append,
    hrange (a + 1 + f.type.prims) _ _ fun _ ↦ rfl]
  refine congrArg _ ?_
  cases ht : f.tail with
  | inline =>
    have hunits : ∀ i, f.cell m a (.unit i) = a + 1 + f.type.fields + i := by
      intro i
      simp only [cell, unitsAt, ht]
    cases hk : f.type.units with
    | words => simp only [slots, ht, hk, reduceCtorEq, if_false, List.map_nil, List.append_nil]
    | refs => simp only [slots, ht, hk, if_true, List.map_nil, List.nil_append, hrange _ _ _ hunits]
  | outOfLine =>
    have hunits : ∀ i, f.cell m a (.unit i) =
        Word.toAddr (m.read (a + 1 + f.type.fields)) + 1 + i := by
      intro i
      simp only [cell, unitsAt, ht]
    have hn : m.read (a + 1 + f.type.fields) ≠ Word.null := hl ht
    cases hk : f.type.units with
    | words => simp [slots, ht, hk, cell]
    | refs => simp [slots, ht, hk, cell, Word.toRef?, hn, hrange _ _ _ hunits]

/-- The slots of an object are the cells of its slot parts. -/
theorem mem_list_slots (hl : f.tail = .outOfLine → m.read (f.cell m a .link) ≠ Word.null) :
    p ∈ (f.slots a).list m ↔ ∃ part, f.IsSlot part ∧ p = f.cell m a part := by
  simp only [list_slots hl, List.mem_map, mem_slotParts, eq_comm]

end Form

end Tenure
