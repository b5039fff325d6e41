import Tenure.Proofs.Access
import Tenure.Proofs.Allocation

/-!
# Moves

A heap moves when an operation ends in a sound heap with the next census. In a move references stay
valid, unless the nursery was emptied on the way, and headroom stays. Main statements: every
operation is a move, whether it succeeds or not, unless the heap is exhausted.
-/

namespace Tenure.Heap

/-- The heap `h` with census `l` goes on to `h'` with census `l'`. -/
structure Moves (h : Heap) (l : Census) (h' : Heap) (l' : Census) : Prop where
  sound : h'.Sound l'
  follows : Follows h l h' l'
  epochs : h.epochs ≤ h'.epochs
  /-- References stay valid as long as the nursery is not emptied. -/
  valid : h'.epochs = h.epochs → ∀ a, h.Valid l a → h'.Valid l' a
  headroom : h.Headroom → h'.Headroom

/-- The heaps differ in the root stack at most, and there is nothing stale on it. -/
structure Rerooted (h : Heap) (l : Census) (h' : Heap) : Prop where
  heap : h' = { h with roots := h'.roots }
  valid : ∀ a ∈ h'.roots.toList, h.Valid l a

/-- The operation is a move unless the heap is exhausted, and the reference in its result, if there
is one, is valid. -/
def Safe {α : Type} (op : HeapM α) (reference? : α → Option Nat) (h : Heap) (l : Census) : Prop :=
  Ends op h (fun x h' ↦ ∃ l', Moves h l h' l' ∧ ∀ a, reference? x = some a → h'.Valid l' a)
    (fun e h' ↦ h.Exhausts e h' ∨ ¬ e.IsExhausted ∧ ∃ l', Moves h l h' l')

/-- There is no reference in the result. -/
def noReference {α : Type} (_ : α) : Option Nat := none

variable {h h' h₁ : Heap} {l l' l₁ : Census} {s t : Span} {f g : Form} {part : Part} {w : Word}
  {v : Option Nat} {a b d n tag size : Nat} {α : Type} {op : HeapM α}

/-- To stay is a move. -/
theorem Moves.refl (hs : h.Sound l) : Moves h l h l :=
  ⟨hs, .refl h l, Nat.le_refl _, fun _ _ hv ↦ hv, id⟩

/-- Without an epoch in between, references stay valid. -/
theorem Moves.of_sound (hs : h'.Sound l) (he : h'.statistics = h.statistics)
    (hn : h'.nursery.region = h.nursery.region) (ha : h'.semispace = h.semispace)
    (hv : ∀ a, h.Valid l a → h'.Valid l a) : Moves h l h' l :=
  ⟨hs, .of_eq he hn ha, by rw [Heap.epochs, Heap.epochs, he], fun _ ↦ hv,
    fun hr ↦ by rwa [Headroom, hn, ha]⟩

/-- To store a word is a move. -/
theorem Stored.moves (hs : h.Sound l) (hst : Stored h l s f part w v h') : Moves h l h' l := by
  refine .of_sound (hst.sound hs) ?_ ?_ ?_ fun a hv ↦ hst.valid_of_valid hs hv <;> rw [hst.heap] <;>
    rfl

/-- To redirect an object is a move. -/
theorem Redirected.moves (hs : h.Sound l) (hr : Redirected h l s t h') : Moves h l h' l := by
  refine .of_sound (hr.sound hs) ?_ ?_ ?_ fun a hv ↦ hr.valid_of_valid hs hv <;> rw [hr.heap] <;>
    rfl

/-- A collection that leaves headroom is a move. -/
theorem Collected.moves (hc : Collected h l h' l') (hr : h'.Headroom) : Moves h l h' l' :=
  ⟨hc.sound, hc.follows, Nat.le_of_lt hc.epochs, fun he ↦ absurd he (Nat.ne_of_gt hc.epochs),
    fun _ ↦ hr⟩

/-- What comes before an allocation is a move. -/
theorem Ready.moves (hs : h.Sound l) (hr : Ready h l h₁ l₁) : Moves h l h₁ l₁ := by
  rcases hr with ⟨rfl, rfl⟩ | ⟨hc, hroom⟩
  · exact .refl hs
  · exact hc.moves hroom

/-- The new object is what its address denotes. -/
theorem Placed.named (hs : h.Sound l) (hp : Placed h f a h') :
    h'.Named (l.place f h.settings.padding a) a ⟨a, f.words h.settings.padding⟩ f := by
  have hf := (hp.object_iff hs).mpr (.inr (.inl ⟨rfl, rfl⟩))
  exact ⟨hf, hp.form.notBlock, Memory.resolve_of_hop?_eq_none hf.hop?⟩

/-- An allocation is a move. -/
theorem Placed.moves (hs : h.Sound l) (hr : Ready h l h₁ l₁) (hp : Placed h₁ f a h') :
    Moves h l h' (l₁.place f h₁.settings.padding a) := by
  have hs₁ := hr.sound hs
  have hep : h'.epochs = h₁.epochs := by rw [Heap.epochs, Heap.epochs, hp.statistics]
  have hm := hr.moves hs
  refine ⟨hp.sound hs₁, hp.follows hr hs, by rw [hep]; exact hm.epochs, fun he b hb ↦ ?_,
    fun hroom ↦ ?_⟩
  · exact (hp.denotes hs₁ (hm.valid (by rw [← hep, he]) b hb).denotes).valid
  · have hcap : h'.nursery.region.capacity = h₁.nursery.region.capacity :=
      (Region.bump_eq_some_iff.mp hp.bump).2.2.2.1
    have hroom₁ := hm.headroom hroom
    rwa [Headroom, Region.capacityBytes, hp.semispace, hcap]

/-! ### The root stack -/

/-- The root stack may stay as it is. -/
theorem Rerooted.refl (hs : h.Sound l) : Rerooted h l h := ⟨rfl, hs.roots⟩

/-- The root stack is changed once more. -/
theorem Rerooted.set {roots : RootStack Nat} (hr : Rerooted h l h')
    (hv : ∀ a ∈ roots.toList, a ∈ h'.roots.toList ∨ h.Valid l a) :
    Rerooted h l { h' with roots := roots } where
  heap := by rw [hr.heap]
  valid := fun a ha ↦ (hv a ha).elim (hr.valid a) id

/-- A move may end with a change of the root stack. -/
theorem Moves.rerooted (hm : Moves h l h₁ l₁) (hr : Rerooted h₁ l₁ h') : Moves h l h' l₁ := by
  obtain ⟨he, hv⟩ := hr
  have hs := hm.sound
  have hf := hm.follows
  rw [he]
  have hspaced := (⟨hs.apart, hs.mapped, hs.vacant, hs.reserve, hs.capacity⟩ :
    Spaced { h₁ with roots := h'.roots })
  have hrem := (⟨hs.remembers.old, hs.remembers.slots, hs.remembers.husks⟩ :
    Remembers { h₁ with roots := h'.roots } l₁)
  exact ⟨⟨hspaced, hs.young, hs.old, hs.wellFormed, hs.links, hv, hrem, hs.epoch⟩,
    ⟨hf.young, hf.old⟩, hm.epochs, hm.valid, hm.headroom⟩

/-- A move may begin with a change of the root stack. -/
theorem Rerooted.moves (hr : Rerooted h l h₁) (hm : Moves h₁ l h' l') : Moves h l h' l' := by
  obtain ⟨he, -⟩ := hr
  rw [he] at hm
  exact ⟨hm.sound, ⟨hm.follows.young, hm.follows.old⟩, hm.epochs, hm.valid, hm.headroom⟩

/-- Soundness does not depend on which valid roots there are. -/
theorem Rerooted.sound (hs : h.Sound l) (hr : Rerooted h l h') : h'.Sound l :=
  ((Moves.refl hs).rerooted hr).sound

/-- Roots take no room. -/
theorem Rerooted.headroom (hs : h.Sound l) (hroom : h.Headroom) (hr : Rerooted h l h') :
    h'.Headroom :=
  ((Moves.refl hs).rerooted hr).headroom hroom

/-- A valid reference is put on top. -/
theorem Rerooted.push (hr : Rerooted h l h') (hv : h.Valid l a) :
    Rerooted h l { h' with roots := h'.roots.push a } := by
  apply hr.set
  intro b hb
  simp only [RootStack.toList_push, List.mem_append, List.mem_singleton] at hb
  rcases hb with hb | rfl
  · exact .inl hb
  · exact .inr hv

/-- Making a root changes the root stack at most. -/
theorem ends_root {bad : Fault → Heap → Prop} (hr : Rerooted h l h') (hv : h.Valid l a) :
    Ends (root a) h' (fun _ h₁ ↦ Rerooted h l h₁) bad := hr.push hv

/-- Pushing a raw root changes the root stack at most. -/
theorem ends_pushRoot {bad : Fault → Heap → Prop} (hr : Rerooted h l h') (hv : h.Valid l a) :
    Ends (pushRoot a) h' (fun _ h₁ ↦ Rerooted h l h₁) bad := hr.push hv

/-- Popping a raw root changes the root stack at most, and gives a valid reference. -/
theorem ends_popRoot (hr : Rerooted h l h') :
    Ends popRoot h' (fun a h₁ ↦ Rerooted h l h₁ ∧ h.Valid l a) (fun _ h₁ ↦ Rerooted h l h₁) := by
  unfold Ends popRoot
  cases hp : h'.roots.pop with
  | error e => exact hr
  | ok p =>
    obtain ⟨a, roots⟩ := p
    obtain ⟨hlast, hlist⟩ := RootStack.pop_eq_ok_iff.mp hp
    refine ⟨hr.set fun b hb ↦ .inl ?_, hr.valid a (List.mem_of_getLast? hlast)⟩
    rw [hlist] at hb
    exact List.mem_of_mem_dropLast hb

/-- A root that is read is valid. -/
theorem ends_rootAt (hs : h.Sound l) :
    Ends (rootAt n) h (fun a h' ↦ h' = h ∧ h.Valid l a) (fun _ h' ↦ h' = h) := by
  unfold Ends rootAt
  cases hp : h.roots.get n with
  | error e => rfl
  | ok a => exact ⟨rfl, hs.roots a (List.mem_of_getElem? (RootStack.get_eq_ok_iff.mp hp))⟩

/-- Writing a root changes the root stack at most. -/
theorem ends_setRootAt (hr : Rerooted h l h') (hv : h.Valid l a) :
    Ends (setRootAt n a) h' (fun _ h₁ ↦ Rerooted h l h₁) (fun _ h₁ ↦ Rerooted h l h₁) := by
  unfold Ends setRootAt
  cases hp : h'.roots.set n a with
  | error e => exact hr
  | ok roots =>
    apply hr.set
    intro b hb
    rw [(RootStack.set_eq_ok_iff.mp hp).2] at hb
    rcases List.mem_or_eq_of_mem_set hb with hb | rfl
    · exact .inl hb
    · exact .inr hv

/-- Releasing a root changes the root stack at most. -/
theorem ends_releaseRoot {r : Root} (hr : Rerooted h l h') :
    Ends (releaseRoot r) h' (fun _ h₁ ↦ Rerooted h l h₁) (fun _ h₁ ↦ Rerooted h l h₁) := by
  unfold Ends releaseRoot
  cases hp : h'.roots.release r with
  | error e => exact hr
  | ok roots =>
    refine hr.set fun b hb ↦ .inl ?_
    rw [(RootStack.release_eq_ok_iff.mp hp).2] at hb
    exact List.mem_of_mem_dropLast hb

/-! ### Every operation moves -/

section Safe

variable {reference? : α → Option Nat}

/-- An operation that only changes the root stack. -/
theorem Safe.of_rerooted (hs : h.Sound l) (ht : Tame op)
    (he : Ends op h (fun x h' ↦ Rerooted h l h' ∧ ∀ a, reference? x = some a → h.Valid l a)
      (fun _ h' ↦ Rerooted h l h')) : Safe op reference? h l := by
  refine (he.and (ht h)).mono (fun x h' ⟨⟨hr, hv⟩, _⟩ ↦ ?_)
    fun _ h' ⟨hr, hn⟩ ↦ .inr ⟨hn, l, (Moves.refl hs).rerooted hr⟩
  have hm := (Moves.refl hs).rerooted hr
  refine ⟨l, hm, fun a ha ↦ hm.valid ?_ a (hv a ha)⟩
  rw [hr.heap, Heap.epochs, Heap.epochs]

/-- An operation that changes nothing. -/
theorem Safe.of_unchanged (hs : h.Sound l) (ht : Tame op)
    (he : Ends op h (fun x h' ↦ h' = h ∧ ∀ a, reference? x = some a → h.Valid l a)
      (fun _ h' ↦ h' = h)) : Safe op reference? h l := by
  refine .of_rerooted hs ht (he.mono (fun x h' ⟨hr, hv⟩ ↦ ⟨?_, hv⟩) fun _ h' hr ↦ ?_)
  · rw [hr]
    exact .refl hs
  · rw [hr]
    exact .refl hs

/-- An operation that writes to the heap, or is refused and changes nothing. -/
theorem Safe.of_written (hs : h.Sound l) (ht : Tame op)
    (he : Ends op h (fun _ h' ↦ Moves h l h' l) (fun _ h' ↦ h' = h)) :
    Safe op noReference h l := by
  refine (he.and (ht h)).mono (fun _ _ ⟨hm, _⟩ ↦ ⟨l, hm, fun _ ha ↦ by cases ha⟩)
    fun _ h' ⟨he, hn⟩ ↦ .inr ⟨hn, l, ?_⟩
  rw [he]
  exact .refl hs

end Safe

/-- A collection cycle is safe. -/
theorem safe_collect (hs : h.Sound l) : Safe collect noReference h l :=
  (ends_collect hs).mono
    (fun _ _ ⟨⟨l', hc⟩, _, hr⟩ ↦ ⟨l', hc.moves hr, fun _ ha ↦ by cases ha⟩)
    fun _ _ ⟨he, hsp⟩ ↦ .inl ⟨he, fun hr ↦ (hsp hr).fault⟩

/-- A major collection is safe. -/
theorem safe_majorCollection (hs : h.Sound l) : Safe majorCollection noReference h l :=
  (ends_majorCollection hs).mono
    (fun _ _ ⟨⟨l', hc⟩, _, hr⟩ ↦ ⟨l', hc.moves hr, fun _ ha ↦ by cases ha⟩)
    fun _ _ ⟨he, hsp⟩ ↦ .inl ⟨he, fun hr ↦ (hsp hr).fault⟩

/-- An allocation with a given layout is safe. -/
theorem safe_allocateWith {tail : TailLayout} (hs : h.Sound l) :
    Safe (allocateWith tag size tail) some h l := by
  refine (ends_allocateWith hs).mono (fun a h' ⟨h₁, l₁, type, hr, _, hp⟩ ↦ ?_)
    fun e h' ⟨_, he⟩ ↦ he.imp id fun ⟨hn, l', hr⟩ ↦ ⟨hn, l', hr.moves hs⟩
  refine ⟨_, hp.moves hs hr, fun b hb ↦ ?_⟩
  cases hb
  exact (hp.named (hr.sound hs)).valid

/-- An allocation with the default layout is safe. -/
theorem safe_allocate (hs : h.Sound l) : Safe (allocate tag size) some h l := by
  rw [allocate]
  exact safe_allocateWith hs

section Access

variable {i : Nat} {target : Nat} (hs : h.Sound l) (hv : h.Valid l a)
include hs

/-- What only reads the heap and does not exhaust it is safe. -/
theorem Safe.of_reading (ht : Tame op) (he : Ends op h (fun _ h' ↦ h' = h) (fun _ h' ↦ h' = h)) :
    Safe op noReference h l :=
  .of_unchanged hs ht (he.imp fun _ _ he ↦ ⟨he, fun _ ha ↦ by cases ha⟩)

/-- Describing an object is safe. -/
theorem safe_describe : Safe (describe a) noReference h l :=
  .of_reading hs tame_describe ends_describe

include hv

/-- Reading a plain field is safe. -/
theorem safe_prim : Safe (prim a i) noReference h l := by
  obtain ⟨s, f, hn⟩ := hv.named
  exact .of_reading hs tame_prim ((ends_prim hn).imp fun _ _ ⟨he, _⟩ ↦ he)

/-- Writing a plain field is safe. -/
theorem safe_setPrim : Safe (setPrim a i w) noReference h l := by
  obtain ⟨s, f, hn⟩ := hv.named
  exact .of_written hs tame_setPrim ((ends_setPrim hn).imp fun _ _ hst ↦ hst.moves hs)

/-- Reading a reference field is safe. -/
theorem safe_ptr : Safe (ptr a i) id h l := by
  obtain ⟨s, f, hn⟩ := hv.named
  exact .of_unchanged hs tame_ptr ((ends_ptr hs hn).imp fun _ _ ⟨he, hb, _⟩ ↦ ⟨he, hb⟩)

/-- Writing a valid reference to a field is safe. -/
theorem safe_setPtr (hb : ∀ b, v = some b → h.Valid l b) :
    Safe (setPtr a i v) noReference h l := by
  obtain ⟨s, f, hn⟩ := hv.named
  exact .of_written hs tame_setPtr ((ends_setPtr hn hb).imp fun _ _ hst ↦ hst.moves hs)

/-- Reading the length of a tail is safe. -/
theorem safe_tailLength : Safe (tailLength a) noReference h l := by
  obtain ⟨s, f, hn⟩ := hv.named
  exact .of_reading hs tame_tailLength ((ends_tailLength hn).imp fun _ _ ⟨he, _⟩ ↦ he)

/-- Reading a word of a tail is safe. -/
theorem safe_tailWord : Safe (tailWord a i) noReference h l := by
  obtain ⟨s, f, hn⟩ := hv.named
  exact .of_reading hs tame_tailWord ((ends_tailWord hn).imp fun _ _ ⟨he, _⟩ ↦ he)

/-- Writing a word of a tail is safe. -/
theorem safe_setTailWord : Safe (setTailWord a i w) noReference h l := by
  obtain ⟨s, f, hn⟩ := hv.named
  exact .of_written hs tame_setTailWord ((ends_setTailWord hn).imp fun _ _ ⟨_, hst⟩ ↦ hst.moves hs)

/-- Reading a reference of a tail is safe. -/
theorem safe_tailPtr : Safe (tailPtr a i) id h l := by
  obtain ⟨s, f, hn⟩ := hv.named
  exact .of_unchanged hs tame_tailPtr ((ends_tailPtr hs hn).imp fun _ _ ⟨he, hb, _⟩ ↦ ⟨he, hb⟩)

/-- Writing a valid reference to a tail is safe. -/
theorem safe_setTailPtr (hb : ∀ b, v = some b → h.Valid l b) :
    Safe (setTailPtr a i v) noReference h l := by
  obtain ⟨s, f, hn⟩ := hv.named
  exact .of_written hs tame_setTailPtr
    ((ends_setTailPtr hn hb).imp fun _ _ ⟨_, hst⟩ ↦ hst.moves hs)

/-- Redirecting an object to a valid target is safe. -/
theorem safe_redirect (hb : h.Valid l target) : Safe (redirect a target) noReference h l := by
  obtain ⟨s, f, hn⟩ := hv.named
  obtain ⟨t, g, hg⟩ := hb.named
  exact .of_written hs tame_redirect
    ((ends_redirect hn hg).mono (fun _ _ hr ↦ hr.moves hs) fun _ _ he ↦ he.1)

/-- Checking an object is safe. -/
theorem safe_validate : Safe (validate a) some h l := by
  obtain ⟨s, f, hn⟩ := hv.named
  refine .of_unchanged hs tame_validate
    ((ends_validate hn).imp fun d _ ⟨he, hd⟩ ↦ ⟨he, fun b hb ↦ ?_⟩)
  cases hb
  rw [hd]
  exact hn.valid

/-- Roots are made and released around an allocation, and given up if it fails. -/
theorem safe_withRoots : Safe (withRoots a n (allocate tag 0)) noReference h l := by
  have hmake : Ends ((List.range n).mapM fun _ ↦ root a) h (fun _ h₁ ↦ Rerooted h l h₁)
      (fun _ _ ↦ False) :=
    Ends.mapM (fun _ _ h₁ ↦ Rerooted h l h₁) (.refl hs)
      fun _ _ _ _ _ _ hr ↦ ends_root hr hv
  obtain ⟨roots, h₁, he, hr⟩ := hmake.exists_eq_ok
  have hsafe : Safe (allocate tag 0) some h₁ l := safe_allocate (hr.sound hs)
  unfold Safe Ends withRoots
  simp only [he]
  cases ha : allocate tag 0 h₁ with
  | error e h₂ =>
    simp only
    rcases hsafe.of_eq_error ha with ⟨hx, hsp⟩ | ⟨hn, l', hm⟩
    · refine .inl ⟨hx, fun hroom ↦ ?_⟩
      have hroom₁ := hr.headroom hs hroom
      obtain ⟨hn, -, rfl⟩ := requireHeadroom_eq_error_iff.mp (hsp hroom₁)
      exact requireHeadroom_eq_error_iff.mpr ⟨hn, rfl, rfl⟩
    · refine .inr ⟨hn, l', ?_⟩
      refine (hr.moves hm).rerooted ((Rerooted.refl hm.sound).set fun b hb ↦ .inl ?_)
      rw [RootStack.toList_unwind] at hb
      exact List.mem_of_mem_take hb
  | ok b h₂ =>
    obtain ⟨l', hm, -⟩ := hsafe.of_eq_ok ha
    have hrel : Ends (do roots.reverse.forM releaseRoot; return b) h₂
        (fun _ h₃ ↦ Rerooted h₂ l' h₃) (fun _ h₃ ↦ Rerooted h₂ l' h₃) :=
      (Ends.forM (fun _ h₃ ↦ Rerooted h₂ l' h₃) (.refl hm.sound)
        fun _ _ _ _ _ hr' ↦ ends_releaseRoot hr').bind fun _ _ hr' ↦ ends_pure_iff.mpr hr'
    have ht : Tame (do roots.reverse.forM releaseRoot; return b) :=
      (Tame.forM fun _ ↦ tame_releaseRoot).bind fun _ ↦ tame_pure b
    simp only
    cases hd : (do roots.reverse.forM releaseRoot; return b : HeapM Nat) h₂ with
    | ok _ h₃ => exact ⟨l', (hr.moves hm).rerooted (hrel.of_eq_ok hd), fun _ hx ↦ by cases hx⟩
    | error _ h₃ =>
      exact .inr ⟨(ht h₂).of_eq_error hd, l', (hr.moves hm).rerooted (hrel.of_eq_error hd)⟩

end Access

end Tenure.Heap
