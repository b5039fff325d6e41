import Tenure.Proofs.Codec

/-!
# Updates of headers

A direct header may be given another tail size or another tail layout, and its tail size may grow.
An update changes its own field and no other, and a growth that does not fit is refused. Main
statement: `updates_exact`, what any sequence of updates makes of a header, and when a sequence of
growths fits.
-/

namespace Tenure.Header

/-- An update of a header. -/
inductive Update
  | resize (size : Nat)
  | relocate (tail : TailLayout)
  | extend (units : Nat)
  deriving DecidableEq, Repr

/-- The tail size that an update makes of another one. A growth that does not fit is none. -/
def Update.sizeAfter (old : Nat) : Update → Nat
  | .resize size => size
  | .relocate _ => old
  | .extend units => if old + units ≤ maxTailSize then old + units else old

/-- The layout that an update sets, if it sets one. -/
def Update.tail? : Update → Option TailLayout
  | .relocate tail => some tail
  | _ => none

/-- The tail size that an update sets although no header can hold it. -/
def Update.tooLong? : Update → Option Nat
  | .resize size => if maxTailSize < size then some size else none
  | _ => none

/-- Update a header. A growth may be refused; the header is then as it was. -/
def update (h : Header) : Update → Except Fault Header
  | .resize size => h.setSize size
  | .relocate tail => h.setTail tail
  | .extend units =>
    match h.grow units with
    | .error (.refused _) => .ok h
    | result => result

/-- Update a header several times. -/
def updates (h : Header) (us : List Update) : Except Fault Header := us.foldlM update h

/-- Grow the tail size several times. The first growth that is refused is the last one. -/
def grows (h : Header) (bs : List Nat) : Except Fault Header := bs.foldlM grow h

/-- The layout after some updates: the one set last, if any. -/
def lastTail (h : Header) (us : List Update) : TailLayout :=
  (us.filterMap Update.tail?).getLast?.getD h.tailBits

/-- The tail size after some updates. -/
def lastSize (h : Header) (us : List Update) : Nat := us.foldl Update.sizeAfter h.sizeBits

variable {h : Header} {tag size units : Nat} {tail : TailLayout}

/-- A direct header is the encoding of its fields. -/
theorem pack_fields (hd : h.isIndirection = false) :
    pack h.tagBits h.sizeBits h.tailBits = h := by
  have he := encode_decode h
  rwa [decode_of_direct hd, Meaning.encode] at he

/-- The fields of a header that was packed are those that were packed. -/
theorem fields_pack (tail : TailLayout) (ht : tag ≤ maxTag) (hs : size ≤ maxTailSize) :
    (pack tag size tail).tagBits = tag ∧ (pack tag size tail).sizeBits = size ∧
      (pack tag size tail).tailBits = tail := by
  have hp := decode_pack tail ht hs
  rwa [decode_of_direct (isIndirection_pack tail ht hs), Meaning.direct.injEq] at hp

/-! ### One update after the other -/

/-- An update that sets no size that is too long changes its own field only. -/
theorem update_pack (tail : TailLayout) (ht : tag ≤ maxTag) (hs : size ≤ maxTailSize)
    {u : Update} (hu : u.tooLong? = none) :
    (pack tag size tail).update u =
        .ok (pack tag (u.sizeAfter size) (u.tail?.getD tail)) ∧
      u.sizeAfter size ≤ maxTailSize := by
  obtain ⟨htag, hsize, htail⟩ := fields_pack tail ht hs
  have hd := isIndirection_pack tail ht hs
  cases u with
  | resize n =>
    have hn : ¬ maxTailSize < n := by simpa [Update.tooLong?] using hu
    refine ⟨?_, Nat.le_of_not_lt hn⟩
    simp only [update, setSize_eq, hd, htag, htail, if_neg hn, Bool.false_eq_true, if_false,
      Update.sizeAfter, Update.tail?, Option.getD_none]
  | relocate t =>
    refine ⟨?_, hs⟩
    simp only [update, setTail_eq, hd, htag, hsize, Bool.false_eq_true, if_false,
      Update.sizeAfter, Update.tail?, Option.getD_some]
  | extend n =>
    by_cases hfit : size + n ≤ maxTailSize
    · simp only [update, grow_eq, hd, htag, hsize, htail, Bool.false_eq_true, if_false,
        if_neg (Nat.not_lt.mpr hfit), Update.sizeAfter, if_pos hfit, Update.tail?,
        Option.getD_none, true_and]
      exact hfit
    · simp only [update, grow_eq, hd, hsize, Bool.false_eq_true, if_false,
        if_pos (Nat.lt_of_not_le hfit), Update.sizeAfter, if_neg hfit, Update.tail?,
        Option.getD_none, and_self, hs]

/-- A size that is too long is reported. -/
theorem update_tooLong (hd : h.isIndirection = false) {u : Update} {n : Nat}
    (hu : u.tooLong? = some n) :
    h.update u = .error (.fatal (.capacityOverflow n maxTailSize)) := by
  cases u with
  | resize m =>
    simp only [Update.tooLong?, Option.ite_none_right_eq_some, Option.some.injEq] at hu
    obtain ⟨hlt, rfl⟩ := hu
    simp only [update, setSize_eq, hd, Bool.false_eq_true, if_false, if_pos hlt]
  | relocate t => cases hu
  | extend m => cases hu

/-- What updates make of a packed header, by induction on their number. -/
theorem updates_pack (tail : TailLayout) (ht : tag ≤ maxTag) (hs : size ≤ maxTailSize)
    (us : List Update) :
    (pack tag size tail).updates us = match us.findSome? Update.tooLong? with
      | some n => .error (.fatal (.capacityOverflow n maxTailSize))
      | none => .ok (pack tag (us.foldl Update.sizeAfter size)
          ((us.filterMap Update.tail?).getLast?.getD tail)) := by
  induction us generalizing size tail with
  | nil => rfl
  | cons u us ih =>
    rw [updates, List.foldlM_cons, List.findSome?_cons]
    cases hu : u.tooLong? with
    | some n =>
      rw [update_tooLong (isIndirection_pack tail ht hs) hu]
      rfl
    | none =>
      obtain ⟨he, hle⟩ := update_pack tail ht hs hu
      rw [he]
      refine (ih (u.tail?.getD tail) hle).trans ?_
      have htail : (us.filterMap Update.tail?).getLast?.getD (u.tail?.getD tail) =
          ((u :: us).filterMap Update.tail?).getLast?.getD tail := by
        rw [List.filterMap_cons]
        cases u.tail? with
        | none => rfl
        | some t => simp only [Option.getD_some, List.getLast?_cons]
      rw [htail, List.foldl_cons]

/-- Updates fail only when they set a size that is too long. -/
theorem updates_eq (hd : h.isIndirection = false) (us : List Update) :
    h.updates us = match us.findSome? Update.tooLong? with
      | some n => .error (.fatal (.capacityOverflow n maxTailSize))
      | none => .ok (pack h.tagBits (h.lastSize us) (h.lastTail us)) := by
  have hu := updates_pack h.tailBits h.tagBits_le h.sizeBits_le us
  rwa [pack_fields hd] at hu

/-- No run of updates leaves a size that does not fit. -/
theorem lastSize_le (h : Header) {us : List Update} (hu : us.findSome? Update.tooLong? = none) :
    h.lastSize us ≤ maxTailSize := by
  rw [List.findSome?_eq_none_iff] at hu
  refine List.foldlRecOn (motive := fun size ↦ size ≤ maxTailSize) us Update.sizeAfter
    h.sizeBits_le fun size hs u hmem ↦ ?_
  exact (update_pack .inline (Nat.zero_le maxTag) hs (hu u hmem)).2

/-! ### Growths -/

/-- A direct header grows as long as the sum fits. -/
theorem grow_of_direct (hd : h.isIndirection = false) (units : Nat) :
    h.grow units = if h.sizeBits + units ≤ maxTailSize then h.setSize (h.sizeBits + units)
      else .error (.refused
        (.capacityOverflow (min (h.sizeBits + units) (UInt64.size - 1)) maxTailSize)) := by
  rw [grow_eq, setSize_eq, hd]
  by_cases hfit : h.sizeBits + units ≤ maxTailSize
  · simp only [Bool.false_eq_true, if_false, if_neg (Nat.not_lt.mpr hfit), if_pos hfit]
  · simp only [Bool.false_eq_true, if_false, if_pos (Nat.lt_of_not_le hfit), if_neg hfit]

private theorem setSize_of_direct (hd : h.isIndirection = false) (hs : size ≤ maxTailSize) :
    h.setSize size = .ok (pack h.tagBits size h.tailBits) := by
  rw [setSize_eq, hd, if_neg Bool.false_ne_true, if_neg (Nat.not_lt.mpr hs)]

/-- To set a size twice is to set it once. -/
theorem setSize_pack (ht : tag ≤ maxTag) (hs : size ≤ maxTailSize) (n : Nat)
    (hn : n ≤ maxTailSize) :
    (pack tag size tail).setSize n = .ok (pack tag n tail) := by
  obtain ⟨htag, -, htail⟩ := fields_pack tail ht hs
  rw [setSize_of_direct (isIndirection_pack tail ht hs) hn, htag, htail]

/-- Growths that fit together are one growth by their sum. -/
theorem grows_eq_setSize (hd : h.isIndirection = false) {bs : List Nat}
    (hfit : h.sizeBits + bs.sum ≤ maxTailSize) : h.grows bs = h.setSize (h.sizeBits + bs.sum) := by
  induction bs generalizing h with
  | nil =>
    rw [List.sum_nil, Nat.add_zero, setSize_of_direct hd h.sizeBits_le, pack_fields hd]
    rfl
  | cons b bs ih =>
    rw [List.sum_cons] at hfit ⊢
    have hb : h.sizeBits + b ≤ maxTailSize := by omega
    obtain ⟨-, hsize, -⟩ := fields_pack h.tailBits h.tagBits_le hb
    rw [grows, List.foldlM_cons, grow_of_direct hd, if_pos hb, setSize_of_direct hd hb]
    refine (ih (isIndirection_pack _ h.tagBits_le hb) (by omega)).trans ?_
    rw [hsize, setSize_pack h.tagBits_le hb _ (by omega), setSize_of_direct hd (by omega),
      Nat.add_assoc]

/-- The first growth that does not fit is refused. -/
theorem grows_eq_refused (hd : h.isIndirection = false) {bs : List Nat} {b : Nat}
    (hfit : h.sizeBits + bs.sum ≤ maxTailSize) (hlt : maxTailSize < h.sizeBits + bs.sum + b)
    (bs' : List Nat) :
    h.grows (bs ++ b :: bs') = .error (.refused
      (.capacityOverflow (min (h.sizeBits + bs.sum + b) (UInt64.size - 1)) maxTailSize)) := by
  obtain ⟨-, hsize, -⟩ := fields_pack h.tailBits h.tagBits_le hfit
  have hbs := grows_eq_setSize hd hfit
  rw [setSize_of_direct hd hfit] at hbs
  rw [grows, List.foldlM_append, show bs.foldlM grow h = _ from hbs]
  show (b :: bs').foldlM grow _ = _
  rw [List.foldlM_cons, grow_of_direct (isIndirection_pack _ h.tagBits_le hfit), hsize,
    if_neg (Nat.not_le.mpr hlt)]
  rfl

/-- Growths that do not fit together have a first one that is refused. -/
theorem exists_refused {bs : List Nat} {size : Nat} (hs : size ≤ maxTailSize)
    (hlt : maxTailSize < size + bs.sum) :
    ∃ pre b post, bs = pre ++ b :: post ∧ size + pre.sum ≤ maxTailSize ∧
      maxTailSize < size + pre.sum + b := by
  induction bs generalizing size with
  | nil =>
    rw [List.sum_nil] at hlt
    omega
  | cons b bs ih =>
    by_cases hb : size + b ≤ maxTailSize
    · rw [List.sum_cons] at hlt
      obtain ⟨pre, c, post, rfl, hfit, hc⟩ := ih hb (by omega)
      exact ⟨b :: pre, c, post, rfl, by rw [List.sum_cons]; omega, by rw [List.sum_cons]; omega⟩
    · exact ⟨[], b, bs, rfl, hs, Nat.lt_of_not_le hb⟩

/-- Growing step by step succeeds just if the sum of all steps fits. -/
theorem exists_grows_iff (hd : h.isIndirection = false) (bs : List Nat) :
    (∃ h', h.grows bs = .ok h') ↔ h.sizeBits + bs.sum ≤ maxTailSize := by
  constructor
  · rintro ⟨h', he⟩
    by_contra hlt
    obtain ⟨pre, b, post, rfl, hfit, hb⟩ := exists_refused h.sizeBits_le (Nat.lt_of_not_le hlt)
    rw [grows_eq_refused hd hfit hb] at he
    cases he
  · intro hfit
    exact ⟨_, (grows_eq_setSize hd hfit).trans (setSize_of_direct hd hfit)⟩

/-! ### Any updates -/

/-- Updates of a direct header give a direct one with the same tag, the layout set last and a size
that fits, and fail only at a size set that does not fit. Growths, of any amount, succeed one after
the other as long as their unbounded sum fits, and are then one setting of the size; the first one
that does not fit is refused with the sum that it asked for, cut off at the largest word. -/
theorem updates_exact (h : Header) (hd : h.isIndirection = false) :
    (∀ us h', h.updates us = .ok h' →
      h'.isIndirection = false ∧ h'.tagBits = h.tagBits ∧ h'.tailBits = h.lastTail us ∧
        h'.sizeBits = h.lastSize us) ∧
    (∀ us, h.updates us = match us.findSome? Update.tooLong? with
      | some n => .error (.fatal (.capacityOverflow n maxTailSize))
      | none => .ok (pack h.tagBits (h.lastSize us) (h.lastTail us))) ∧
    (∀ bs, (∃ h', h.grows bs = .ok h') ↔ h.sizeBits + bs.sum ≤ maxTailSize) ∧
    (∀ bs, h.sizeBits + bs.sum ≤ maxTailSize → h.grows bs = h.setSize (h.sizeBits + bs.sum)) ∧
    ∀ bs b bs', h.sizeBits + bs.sum ≤ maxTailSize → maxTailSize < h.sizeBits + bs.sum + b →
      h.grows (bs ++ b :: bs') = .error (.refused
        (.capacityOverflow (min (h.sizeBits + bs.sum + b) (UInt64.size - 1)) maxTailSize)) := by
  refine ⟨fun us h' he ↦ ?_, updates_eq hd, exists_grows_iff hd, fun bs ↦ grows_eq_setSize hd,
    fun bs b bs' hfit hlt ↦ grows_eq_refused hd hfit hlt bs'⟩
  rw [updates_eq hd] at he
  split at he
  · cases he
  · next hu =>
    obtain rfl := Except.ok.inj he
    have hs := lastSize_le h hu
    obtain ⟨htag, hsize, htail⟩ := fields_pack (h.lastTail us) h.tagBits_le hs
    exact ⟨isIndirection_pack _ h.tagBits_le hs, htag, htail, hsize⟩

/-- A header with tag 9 that is set, moved out of line, and grown by what fits and by nearly all
that a word can hold. -/
theorem updates_sample : (pack 9 10 .inline).isIndirection = false ∧
    (pack 9 10 .inline).updates
        [.resize 4000, .relocate .outOfLine, .extend 95, .extend (2 ^ 64 - 1)] =
      .ok (pack 9 4095 .outOfLine) ∧
    (∃ h', (pack 9 10 .inline).grows [4000, 85] = .ok h') ∧
    (pack 9 10 .inline).grows [4000, 2 ^ 64 - 1, 1] =
      .error (.refused (.capacityOverflow (2 ^ 64 - 1) 4095)) := by
  have hd : (pack 9 10 .inline).isIndirection = false := by decide
  obtain ⟨-, hus, hiff, -, hrefused⟩ := updates_exact (pack 9 10 .inline) hd
  refine ⟨hd, (hus _).trans (by decide +kernel), (hiff _).mpr (by decide), ?_⟩
  exact (hrefused [4000] (2 ^ 64 - 1) [1] (by decide +kernel) (by decide +kernel)).trans
    (by decide +kernel)

end Tenure.Header
