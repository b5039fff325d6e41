import Tenure.Proofs.Pass.Room
import Tenure.Proofs.Session

/-!
# Forwarding

The parts of a pass may be called in any order and as often as one likes: references are evacuated,
objects outside the source are scanned, and the target is scanned from the beginning of any of its
objects on. What was copied is forwarded ever after. Main statement: `Calls.forwards`, an object is
copied once at most, all references to it are led to the copy from then on, and no two objects come
to share a place.
-/

namespace Tenure.Origin

section Statement

variable (o : Origin)

/-- The objects in a state of the pass: those of the origin, and the copies one behind the other. -/
def present (st : CopyState) : List Span :=
  o.objects ++ st.memory.spans o.pass.table o.pass.padding st.target.capacity
    (o.target.start + o.target.cursor) (st.target.start + st.target.cursor)

/-- A reference to `a` may be evacuated: it is one to an object, and it does not denote a block. -/
def Movable (st : CopyState) (a : Nat) : Prop :=
  IsObject (o.present st) a ∧ (st.memory.header (st.memory.resolve a)).tagBits ≠ blockTag

/-- The object at `a` may be scanned: it is direct and lies outside the source. -/
def Scannable (st : CopyState) (a : Nat) : Prop :=
  IsObject (o.present st) a ∧ st.memory.hop? a = none ∧ o.pass.source.contains a = false

/-- The target may be scanned from word `k` on: from there the objects `os` fill it up to its
cursor. -/
def Fills (st : CopyState) (k : Nat) (os : List Span) : Prop :=
  (∀ t ∈ os, t ∈ o.present st) ∧
    Tiles os (st.target.start + k) (st.target.start + st.target.cursor)

/-- The state after some calls of one pass. Of each evacuation the reference and the place that it
gave are noted. -/
inductive Calls : List (Nat × Nat) → CopyState → Prop
  | start : Calls [] { memory := o.memory, target := o.target }
  | evacuate {log : List (Nat × Nat)} {st st' : CopyState} {a r : Nat} : Calls log st →
      o.Movable st a → o.pass.evacuate a st = .ok r st' → Calls (log ++ [(a, r)]) st'
  | scanObject {log : List (Nat × Nat)} {st st' : CopyState} {a : Nat} : Calls log st →
      o.Scannable st a → o.pass.scanObject a st = .ok () st' → Calls log st'
  | scanFrom {log : List (Nat × Nat)} {st st' : CopyState} {k : Nat} {os : List Span} :
      Calls log st → o.Fills st k os → o.pass.scanFrom k st = .ok () st' → Calls log st'

/-- What was copied so far: objects of the source, each with its copy. -/
structure Forwarded (cs : Copies) (st : CopyState) : Prop where
  /-- No object was copied twice. -/
  once : (cs.map Prod.fst).Nodup
  /-- An object that was copied is an indirection to its copy. -/
  forward : ∀ c ∈ cs, c.1 ∈ o.inside ∧ st.memory.hop? c.1.start = some c.2.start ∧
    ∃ f, o.Object c.1 f ∧ st.memory.form? o.pass.table c.2.start = some (o.pass.shape f)
  /-- All references that denoted it are led to the copy, and to do so changes nothing. -/
  settled : ∀ c ∈ cs, ∀ b, IsObject o.objects b → o.memory.resolve b = c.1.start →
    o.pass.evacuate b st = .ok c.2.start st
  /-- All others in the source are as they were. -/
  waiting : ∀ s ∈ o.inside, s ∉ cs.map Prod.fst → ∀ i < s.words,
    st.memory.read (s.start + i) = o.memory.read (s.start + i)
  /-- The copies are all that was added to the target. -/
  tiles : Tiles (cs.map Prod.snd) (o.target.start + o.target.cursor)
    (st.target.start + st.target.cursor)
  objects : st.tally.objects = cs.length
  words : st.tally.words + o.target.cursor = st.target.cursor
  words_le : st.tally.words ≤ o.pass.source.cursor

/-- What holds after any calls. -/
structure Forwards (log : List (Nat × Nat)) (st : CopyState) : Prop where
  copies : ∃ cs, o.Forwarded cs st
  /-- To evacuate a reference again gives the same place and changes nothing. -/
  again : ∀ e ∈ log, o.pass.evacuate e.1 st = .ok e.2 st
  /-- So it is with all references that denoted the same object when the pass began. -/
  together : ∀ e ∈ log, ∀ b, IsObject o.objects e.1 → IsObject o.objects b →
    o.memory.resolve b = o.memory.resolve e.1 → o.pass.evacuate b st = .ok e.2 st
  /-- An object that was moved stays where it is. -/
  fixed : ∀ e ∈ log, o.pass.evacuate e.2 st = .ok e.2 st
  /-- References come to one place if they denoted the same object when the pass began. -/
  same_iff : ∀ e ∈ log, ∀ e' ∈ log, IsObject o.objects e.1 → IsObject o.objects e'.1 →
    (e.2 = e'.2 ↔ o.memory.resolve e.1 = o.memory.resolve e'.1)
  /-- With room for what is in use of the source, no call fails. -/
  evacuates : o.pass.source.cursor ≤ o.target.free → ∀ a, o.Movable st a →
    ∃ r st', o.pass.evacuate a st = .ok r st'
  scans : o.pass.source.cursor ≤ o.target.free → ∀ a, o.Scannable st a →
    ∃ st', o.pass.scanObject a st = .ok () st'
  sweeps : o.pass.source.cursor ≤ o.target.free → ∀ k os, o.Fills st k os →
    (∀ t ∈ os, st.memory.hop? t.start = none) → ∃ st', o.pass.scanFrom k st = .ok () st'

/-- `a` leads to the object `d` at the origin, or is where the copy of `d` lies. -/
def Names (cs : Copies) (a : Nat) (d : Span) : Prop :=
  IsObject o.objects a ∧ o.memory.Leads a d.start ∨ ∃ t, (d, t) ∈ cs ∧ t.start = a

/-- The object at `t` stands for one of the origin. -/
def Standing (cs : Copies) (t : Span) : Prop := ∃ s f g, o.Stands cs s t f g

/-- The object at `t` is an indirection outside the source. -/
def Husk (t : Span) : Prop := t ∈ o.outside ∧ o.memory.hop? t.start ≠ none

/-- A pass may begin with every reference that a program can name. -/
def Open : Prop := ∀ a, o.memory.Valid o.pass.table o.objects a → a ∈ o.starts

/-- The copies made by some calls, and what the references led to that were evacuated. -/
structure Follows (cs : Copies) (log : List (Nat × Nat)) (st : CopyState) : Prop where
  holds : o.Holds cs st.memory st.target
  advance : o.Advance [] { memory := o.memory, target := o.target } cs st
  log : ∀ e ∈ log, ∃ d f, o.Object d f ∧ o.Names cs e.1 d ∧ e.2 = cs.current d.start ∧
    o.pass.source.contains e.2 = false

open Classical in
/-- The same origin, of a pass that begins with every reference that a program can name. -/
noncomputable def opened : Origin :=
  { o with
    starts := (o.objects.map Span.start).filter fun a ↦
      o.memory.Valid o.pass.table o.objects a }

end Statement

variable {o : Origin} {cs cs' : Copies} {log : List (Nat × Nat)} {st st' : CopyState}
  {s t d : Span} {f g : Form} {a k : Nat} {os : List Span} {part : Part}

/-! ### What may be called -/

private theorem Names.mono (h : o.Names cs a d) (hc : ∀ c ∈ cs, c ∈ cs') : o.Names cs' a d := by
  rcases h with h | ⟨t, ht, he⟩
  · exact .inl h
  · exact .inr ⟨t, hc _ ht, he⟩

/-- What stands still does so after more copies. -/
theorem Standing.mono (h : o.Standing cs t) (hc : ∀ c ∈ cs, c ∈ cs') : o.Standing cs' t := by
  obtain ⟨s, f, g, hs⟩ := h
  exact ⟨s, f, g, hs.mono hc⟩

/-- What was copied stands for its object. -/
theorem Selection.standing {c : Span × Span} (hp : o.Selection cs) (hc : c ∈ cs) :
    o.Standing cs c.2 := by
  obtain ⟨-, f, hf, -⟩ := hp.object c hc
  exact ⟨c.1, f, _, .copied hc hf⟩

section Holds

variable (ho : o.Sound) (h : o.Holds cs st.memory st.target)
include ho h

omit ho in
/-- The copies can be told from the memory. -/
theorem Holds.present_eq : o.present st = o.objects ++ cs.map Prod.snd := by
  have hcap := h.capacity
  have hstart := h.start
  have hle := st.target.cursor_le
  rw [present, Tiles.spans_eq h.plan.tiles (by omega)]
  intro t ht
  obtain ⟨c, hc, rfl⟩ := List.mem_map.mp ht
  obtain ⟨-, f, hf, hw⟩ := h.plan.object c hc
  have hs : o.Stands cs c.1 c.2 f (o.pass.shape f) := .copied hc hf
  rw [Memory.extent_of_form? _ (h.form? hs), hw]

/-- Every reference to an object leads to one of the origin. -/
theorem Holds.exists_names (ha : IsObject (o.present st) a) :
    ∃ d f, o.Object d f ∧ o.Names cs a d := by
  obtain ⟨s, hs, rfl⟩ := ha
  rw [h.present_eq] at hs
  rcases List.mem_append.mp hs with hs | hs
  · obtain ⟨d, f, hl, hd⟩ := ho.wellFormed.leads_of_mem hs
    exact ⟨d, f, hd, .inl ⟨.of_mem hs, hl⟩⟩
  · obtain ⟨c, hc, rfl⟩ := List.mem_map.mp hs
    obtain ⟨-, f, hf, -⟩ := h.plan.object c hc
    exact ⟨c.1, f, hf, .inr ⟨c.2, hc, rfl⟩⟩

/-- A name of an object leads to where that object is now. -/
theorem Names.leads (hd : o.Object d f) (hn : o.Names cs a d) :
    st.memory.Leads a (cs.current d.start) := by
  rcases hn with ⟨ha, hl⟩ | ⟨t, ht, rfl⟩
  · exact h.leads ho hd ha hl
  · rw [h.plan.current_of_mem ho ht]
    exact .here (Memory.hop?_of_form? (h.form? (.copied ht hd)))

/-- A reference to an object of the origin is not one to a copy. -/
theorem Names.leads_origin (ha : IsObject o.objects a) (hn : o.Names cs a d) :
    o.memory.Leads a d.start := by
  rcases hn with ⟨-, hl⟩ | ⟨t, ht, rfl⟩
  · exact hl
  · obtain ⟨u, hu, he⟩ := ha
    obtain ⟨j, hj, hj', -, hat⟩ := h.plan.exists_vacant ht (h.plan.copy_mem ht).2.2
    have hat : t.start = o.target.start + j := hat
    rcases mem_objects.mp hu with hi | hout
    · have hin := ho.apart _ (ho.contains_inside hi (ho.nonempty_inside hi))
      rw [Nat.add_zero, he, hat, Region.mem_iff.mpr ⟨by omega, by omega⟩] at hin
      cases hin
    · exact absurd (he.trans hat) (ho.ne_vacant hout (ho.nonempty_outside hout) hj hj')

/-- An object outside the source stands for one of the origin, or it is an indirection. -/
theorem Holds.standing_or_husk (ht : t ∈ o.present st)
    (hn : o.pass.source.contains t.start = false) : o.Standing cs t ∨ o.Husk t := by
  rw [h.present_eq] at ht
  rcases List.mem_append.mp ht with ht | ht
  · have hout := (ho.not_contains_iff ht).mp hn
    rcases ho.wellFormed.header t ht with ⟨f, hf⟩ | ⟨b, hr, hv⟩
    · exact .inl ⟨t, f, f, .stays hout ⟨ht, hf⟩⟩
    · have hb := Memory.hop?_of_read hr (ho.wellFormed.lt_limit hv.denotes.1)
      exact .inr ⟨hout, by rw [hb]; simp⟩
  · obtain ⟨c, hc, rfl⟩ := List.mem_map.mp ht
    exact .inl (h.plan.standing hc)

/-- If it is direct, it stands for one of the origin. -/
theorem Holds.standing (ht : t ∈ o.present st) (hh : st.memory.hop? t.start = none)
    (hn : o.pass.source.contains t.start = false) : o.Standing cs t :=
  (h.standing_or_husk ho ht hn).resolve_right fun hu ↦ h.hop?_husk ho hu.1 hu.2 hh

/-- What fills the target does not lie in the source. -/
theorem Fills.not_contains (hf : o.Fills st k os) {t : Span} (ht : t ∈ os) :
    o.pass.source.contains t.start = false := by
  have hm := hf.2.mem ht
  have hle := st.target.cursor_le
  simp only [Span.stop] at hm
  refine ho.not_contains_target (Region.mem_iff.mpr ?_)
  rw [← h.start, ← h.capacity]
  exact ⟨by omega, by omega⟩

variable (hopen : o.Open)
include hopen

/-- Whatever an object outside the source refers to is due. -/
theorem Open.dueSlot (hs : o.Stands cs s t f g) (hp : g.IsSlot part) :
    o.DueSlot (f.cell o.memory s.start part) := by
  refine hs.dueSlot ?_ hp
  cases hs with
  | stays _ hf =>
    have hb := ho.wellFormed.not_isBlock_of_isSlot hf hp
    exact .start (hopen _ (hf.denotes hb).valid) (.here hf.hop?)
  | copied hc _ => exact h.plan.due _ hc

/-! ### One call -/

/-- Evacuation gives the place where the object is from then on. -/
theorem ends_evacuate_of_names (hd : o.Object d f) (hn : o.Names cs a d)
    (hb : (st.memory.header (st.memory.resolve a)).tagBits ≠ blockTag) :
    Ends (o.pass.evacuate a) st (fun r ↦ o.Reached cs st fun cs' _ ↦
      r = cs'.current d.start ∧ o.pass.source.contains r = false) o.Stuck := by
  have hl := hn.leads ho h hd
  cases hc : o.pass.source.contains (cs.current d.start) with
  | false =>
    exact (ends_iff_of_eq_ok (Evacuation.evacuate_of_leads hl hc)).mpr
      ⟨cs, h, .refl o cs st, rfl, hc⟩
  | true =>
    obtain ⟨hi, hcur, hw⟩ := h.plan.waiting ho hd hc
    rw [hl.resolve, hcur, Memory.tagBits_of_form? (h.form?_waiting ho hd hi hw)] at hb
    have hdue : o.Due d.start := .start (hopen _ (hd.denotes hb).valid) (.here hd.hop?)
    exact (ends_evacuate ho h hd hdue hl).imp fun r st' ⟨cs', h', hadv, hr, hn, _⟩ ↦
      ⟨cs', h', hadv, hr, hn⟩

private theorem ends_scanObject_of_standing (ht : o.Standing cs t) :
    Ends (o.pass.scanObject t.start) st (fun _ st' ↦
      st'.memory.extent o.pass.table o.pass.padding t.start = .ok t.words ∧
      o.Reached cs st (fun _ _ ↦ True) st') o.Stuck := by
  obtain ⟨s, f, g, hs⟩ := ht
  refine (ends_scanObject ho h hs fun _ ↦ hopen.dueSlot ho h hs).imp
    fun _ st' ⟨cs', h', hadv, _⟩ ↦ ⟨?_, cs', h', hadv, trivial⟩
  rw [Memory.extent_of_form? _ (h'.form? (hs.mono hadv.copies.subset)), hs.words_eq ho h.plan]

/-- A scan of the target may get stuck, and it ends when it comes across an indirection. -/
theorem ends_scanFrom_of_fills (hf : o.Fills st k os) :
    Ends (o.pass.scanFrom k) st (fun _ ↦ o.Reached cs st fun _ _ ↦ True)
      (fun e s ↦ (∀ t ∈ os, st.memory.hop? t.start = none) → o.Stuck e s) := by
  have hcontains : ∀ t ∈ os, o.pass.source.contains t.start = false :=
    fun _ ht ↦ hf.not_contains ho h ht
  obtain ⟨hos, htiles⟩ := hf
  have hentry : ∀ t ∈ os, o.Standing cs t ∨
      o.Husk t ∧ ¬ ∀ t ∈ os, st.memory.hop? t.start = none := fun t ht ↦
    (h.standing_or_husk ho (hos t ht) (hcontains t ht)).imp_right fun hu ↦
      ⟨hu, fun hall ↦ h.hop?_husk ho hu.1 hu.2 (hall t ht)⟩
  rw [h.start] at htiles
  refine (ends_scanUpTo (os.map fun t ↦ (t, t)) (fun cs c ↦ o.Standing cs c.2 ∨
      o.Husk c.2 ∧ ¬ ∀ t ∈ os, st.memory.hop? t.start = none) (fun _ _ _ ↦ True)
    (fun _ _ hp hc ↦ .inl (hp.standing hc)) (fun cs' cs'' c hcs hc ↦ ?_)
    (fun done cs' c st' h' hc _ ↦ ?_) h trivial ?_ ?_ (by omega)).imp ?_
  · exact hc.imp_left fun hs ↦ hs.mono hcs.subset
  · rcases hc with hs | ⟨⟨hout, hh⟩, hnot⟩
    · exact (ends_scanObject_of_standing ho h' hopen hs).mono (fun _ _ hg ↦ hg) fun _ _ hb _ ↦ hb
    · unfold Ends
      simp only [Evacuation.scanObject, CopyM.inspect,
        Memory.slots_of_hop?_ne_none _ (h'.hop?_husk ho hout hh), attempt, bind, EStateM.bind]
      exact fun hall ↦ absurd hall hnot
  · intro c hc
    obtain ⟨t, ht, rfl⟩ := List.mem_map.mp hc
    exact hentry t ht
  · simpa only [List.map_map, Function.comp_def, List.map_id'] using htiles
  · rintro _ _ ⟨cs', h', hadv, -⟩
    exact ⟨cs', h', hadv, trivial⟩

end Holds

/-! ### Any calls -/

section Follows

variable (ho : o.Sound)
include ho

/-- Nothing was called yet. -/
theorem Sound.follows : o.Follows [] [] { memory := o.memory, target := o.target } :=
  ⟨ho.holds, .refl o _ _, by simp⟩

/-- What was noted remains true in later states. -/
theorem Follows.later (h : o.Follows cs log st) (h' : o.Holds cs' st'.memory st'.target)
    (hadv : o.Advance cs st cs' st') : o.Follows cs' log st' := by
  refine ⟨h', h.advance.trans hadv, fun e he ↦ ?_⟩
  obtain ⟨d, f, hd, hn, hr, hc⟩ := h.log e he
  obtain ⟨ds, rfl⟩ := hadv.copies
  refine ⟨d, f, hd, hn.mono hadv.copies.subset, ?_, hc⟩
  rw [hr] at hc ⊢
  exact (h'.plan.current_append ho hc).symm

omit ho in
/-- One more reference may be noted. -/
theorem Follows.note {r : Nat} (h : o.Follows cs log st) (hd : o.Object d f) (hn : o.Names cs a d)
    (hr : r = cs.current d.start) (hc : o.pass.source.contains r = false) :
    o.Follows cs (log ++ [(a, r)]) st := by
  refine ⟨h.holds, h.advance, fun e he ↦ ?_⟩
  rcases List.mem_append.mp he with he | he
  · exact h.log e he
  · obtain rfl := List.mem_singleton.mp he
    exact ⟨d, f, hd, hn, hr, hc⟩

/-- One call after the other keeps the notes true. -/
theorem Calls.exists_follows (hopen : o.Open) (hc : o.Calls log st) :
    ∃ cs, o.Follows cs log st := by
  induction hc with
  | start => exact ⟨[], ho.follows⟩
  | evacuate _ hm he ih =>
    obtain ⟨cs, h⟩ := ih
    obtain ⟨d, f, hd, hn⟩ := h.holds.exists_names ho hm.1
    obtain ⟨cs', h', hadv, hr, hc⟩ :=
      (ends_evacuate_of_names ho h.holds hopen hd hn hm.2).of_eq_ok he
    exact ⟨cs', (h.later ho h' hadv).note hd (hn.mono hadv.copies.subset) hr hc⟩
  | scanObject _ hs he ih =>
    obtain ⟨cs, h⟩ := ih
    obtain ⟨⟨t, ht, rfl⟩, hh, hn⟩ := hs
    obtain ⟨-, cs', h', hadv, -⟩ :=
      (ends_scanObject_of_standing ho h.holds hopen (h.holds.standing ho ht hh hn)).of_eq_ok he
    exact ⟨cs', h.later ho h' hadv⟩
  | scanFrom _ hf he ih =>
    obtain ⟨cs, h⟩ := ih
    obtain ⟨cs', h', hadv, -⟩ := (ends_scanFrom_of_fills ho h.holds hopen hf).of_eq_ok he
    exact ⟨cs', h.later ho h' hadv⟩

/-- A reference to an object that is outside the source now is led there, and nothing changes. -/
theorem Follows.evacuate_eq {b r : Nat} (h : o.Follows cs log st) (hd : o.Object d f)
    (hb : IsObject o.objects b) (hres : o.memory.resolve b = d.start)
    (hr : cs.current d.start = r) (hc : o.pass.source.contains r = false) :
    o.pass.evacuate b st = .ok r st := by
  obtain ⟨u, hu, rfl⟩ := hb
  obtain ⟨d', f', hl, -⟩ := ho.wellFormed.leads_of_mem hu
  rw [hl.resolve] at hres
  rw [hres] at hl
  subst hr
  exact Evacuation.evacuate_of_leads (h.holds.leads ho hd (.of_mem hu) hl) hc

/-- A pass with room for everything does not get stuck. -/
theorem Stuck.not_roomy {e : Fault} (h : o.Stuck e st)
    (hroom : o.pass.source.cursor ≤ o.target.free) : False :=
  absurd (h.lt ho) (Nat.not_lt.mpr hroom)

private theorem Follows.forwarded (h : o.Follows cs log st) : o.Forwarded cs st := by
  have hplan := h.holds.plan
  have hobjects := h.advance.objects
  have hwords := h.advance.words
  simp only [List.length_nil, Nat.add_zero, Nat.zero_add] at hobjects hwords
  refine ⟨List.pairwise_map.mpr hplan.once, fun c hc ↦ ?_, fun c hc b hb hres ↦ ?_,
    fun s hs hn i hi ↦ ?_, hplan.tiles, hobjects, hwords, ?_⟩
  · obtain ⟨hi, f, hf, -⟩ := hplan.object c hc
    have hst : o.Stands cs c.1 c.2 f (o.pass.shape f) := .copied hc hf
    exact ⟨hi, Memory.hop?_of_read (h.holds.forward _ _ hc) (h.holds.stands_lt_limit ho hst), f,
      hf, h.holds.form? hst⟩
  · obtain ⟨-, f, hf, -⟩ := hplan.object c hc
    have hst : o.Stands cs c.1 c.2 f (o.pass.shape f) := .copied hc hf
    exact h.evacuate_eq ho hf hb hres (hst.current_eq ho hplan)
      (hst.not_contains ho hplan (hst.words_pos ho hplan))
  · exact h.holds.read_inside ho hs hi fun _ c hc he ↦ hn (List.mem_map.mpr ⟨c, hc, he⟩)
  · have hle := hplan.toSelection.total_le ho
    have htotal := hplan.tiles.add_total
    have hstart := h.holds.start
    omega

/-- What a reference was led to that was evacuated. -/
theorem Follows.leads {e : Nat × Nat} (h : o.Follows cs log st) (he : e ∈ log)
    (ha : IsObject o.objects e.1) : ∃ d f, o.Object d f ∧ o.memory.Leads e.1 d.start ∧
      e.2 = cs.current d.start ∧ o.pass.source.contains e.2 = false := by
  obtain ⟨d, f, hd, hn, hr, hc⟩ := h.log e he
  exact ⟨d, f, hd, hn.leads_origin ho h.holds ha, hr, hc⟩

private theorem Follows.concludes (hopen : o.Open) (h : o.Follows cs log st) :
    o.Forwards log st := by
  have hh := h.holds
  refine ⟨⟨cs, h.forwarded ho⟩, fun e he ↦ ?_, fun e he b ha hb hres ↦ ?_, fun e he ↦ ?_,
    fun e he e' he' ha ha' ↦ ?_, fun hroom a hm ↦ ?_, fun hroom a hs ↦ ?_,
    fun hroom k os hf hall ↦ ?_⟩
  · obtain ⟨d, f, hd, hn, hr, hc⟩ := h.log e he
    rw [hr] at hc ⊢
    exact Evacuation.evacuate_of_leads (hn.leads ho hh hd) hc
  · obtain ⟨d, f, hd, hl, hr, hc⟩ := h.leads ho he ha
    exact h.evacuate_eq ho hd hb (hres.trans hl.resolve) hr.symm hc
  · obtain ⟨d, f, hd, hn, hr, hc⟩ := h.log e he
    have hend := (hn.leads ho hh hd).hop?_eq_none
    rw [← hr] at hend
    exact Evacuation.evacuate_of_leads (.here hend) hc
  · obtain ⟨d, f, hd, hl, hr, -⟩ := h.leads ho he ha
    obtain ⟨d', f', hd', hl', hr', -⟩ := h.leads ho he' ha'
    rw [hl.resolve, hl'.resolve, hr, hr']
    refine ⟨fun heq ↦ ?_, fun heq ↦ by rw [heq]⟩
    rw [hh.plan.current_inj ho hd hd' heq]
  · obtain ⟨d, f, hd, hn⟩ := hh.exists_names ho hm.1
    obtain ⟨r, st', he, -⟩ := ((ends_evacuate_of_names ho hh hopen hd hn hm.2).mono
      (fun _ _ hg ↦ hg) fun _ _ hb ↦ hb.not_roomy ho hroom).exists_eq_ok
    exact ⟨r, st', he⟩
  · obtain ⟨⟨t, ht, rfl⟩, hn, hc⟩ := hs
    obtain ⟨_, st', he, -⟩ := ((ends_scanObject_of_standing ho hh hopen
      (hh.standing ho ht hn hc)).mono (fun _ _ hg ↦ hg)
        fun _ _ hb ↦ hb.not_roomy ho hroom).exists_eq_ok
    exact ⟨st', he⟩
  · obtain ⟨_, st', he, -⟩ := ((ends_scanFrom_of_fills ho hh hopen hf).mono
      (fun _ _ hg ↦ hg) fun _ _ hb ↦ (hb hall).not_roomy ho hroom).exists_eq_ok
    exact ⟨st', he⟩

end Follows

/-! ### Any references -/

/-- The objects of the opened pass are those that a program can name. -/
theorem mem_starts_opened :
    a ∈ o.opened.starts ↔ o.memory.Valid o.pass.table o.objects a := by
  simp only [opened, List.mem_filter, decide_eq_true_eq]
  refine ⟨fun h ↦ h.2, fun h ↦ ⟨?_, h⟩⟩
  obtain ⟨s, hs, rfl⟩ := h.denotes.1
  exact List.mem_map.mpr ⟨s, hs, rfl⟩

/-- The opened pass is open. -/
theorem open_opened : o.opened.Open := fun _ ha ↦ mem_starts_opened.mpr ha

/-- What a pass needs does not depend on the references with which it begins, as long as a program
can name them. -/
theorem Sound.opened (ho : o.Sound) : o.opened.Sound where
  wellFormed := ho.wellFormed
  inside := ho.inside
  outside := ho.outside
  apart := ho.apart
  mapped := ho.mapped
  vacant := ho.vacant
  links := ho.links
  starts := fun _ ha ↦ .inl (mem_starts_opened.mp ha)

/-- Calls on a pass are calls on the opened one. -/
theorem Calls.opened (hc : o.Calls log st) : o.opened.Calls log st := by
  induction hc with
  | start => exact .start
  | evacuate _ hm he ih => exact ih.evacuate hm he
  | scanObject _ hs he ih => exact ih.scanObject hs he
  | scanFrom _ hf he ih => exact ih.scanFrom hf he

/-- After any calls of a pass, each object was copied once at most. A reference that was evacuated
is led to the same place ever after, together with all others that denoted its object, and no two
objects share a place. With room for what is in use of the source, every call gives a result. -/
theorem Calls.forwards (hc : o.Calls log st) (ho : o.Sound) : o.Forwards log st := by
  obtain ⟨cs, hf⟩ := hc.opened.exists_follows ho.opened open_opened
  have h := hf.concludes ho.opened open_opened
  obtain ⟨cs, hcs⟩ := h.copies
  exact ⟨⟨cs, hcs.once, hcs.forward, hcs.settled, hcs.waiting, hcs.tiles, hcs.objects, hcs.words,
    hcs.words_le⟩, h.again, h.together, h.fixed, h.same_iff, h.evacuates, h.scans, h.sweeps⟩

open Mutator in
/-- A heap whose first root is an old object that stands for a young one. The young one is copied,
and its block moves inline. -/
theorem forwards_sample : ∃ (h : Heap) (l : Census) (a r : Nat) (st : CopyState), h.Sound l ∧
    h.roots.toList.head? = some a ∧ h.nursery.region.contains a = false ∧
    (h.epochOrigin l).Calls [(a, r)] st ∧ st.tally.objects = 1 ∧
    (h.epochOrigin l).Forwards [(a, r)] st := by
  obtain ⟨s, l, hs, hr⟩ := Sample.reaches
  have ho := hr.sound.heap.epochOrigin
  have hc : (Sample.session Sample.smallSettings).map (fun s ↦ s.heap.roots.toList.head?.map
      fun a ↦ (s.heap.nursery.region.contains a,
        match (s.heap.epochOrigin {}).pass.evacuate a
          { memory := s.heap.memory, target := s.heap.semispace.active } with
        | .ok _ st => st.tally.objects
        | .error _ _ => 0)) = some (some (false, 1)) := by
    decide +kernel
  rw [hs, Option.map_some, Option.some.injEq, Option.map_eq_some_iff] at hc
  obtain ⟨a, ha, hc⟩ := hc
  obtain ⟨hout, hone⟩ := Prod.mk.inj hc
  have hv := hr.sound.heap.roots a (List.mem_of_mem_head? ha)
  cases he : (s.heap.epochOrigin l).pass.evacuate a
      { memory := s.heap.memory, target := s.heap.semispace.active } with
  | error e st =>
    have he' : (s.heap.epochOrigin {}).pass.evacuate a
        { memory := s.heap.memory, target := s.heap.semispace.active } = .error e st := he
    rw [he'] at hone
    cases hone
  | ok r st =>
    have he' : (s.heap.epochOrigin {}).pass.evacuate a
        { memory := s.heap.memory, target := s.heap.semispace.active } = .ok r st := he
    rw [he'] at hone
    have hcalls : (s.heap.epochOrigin l).Calls [(a, r)] st := by
      refine .evacuate .start ⟨?_, ?_⟩ he
      · obtain ⟨u, hu, rfl⟩ := hv.denotes.1
        exact ⟨u, List.mem_append_left _ hu, rfl⟩
      · obtain ⟨-, -, u, f, hf, hu, hb⟩ := hv.denotes
        show (s.heap.memory.header (s.heap.memory.resolve a)).tagBits ≠ blockTag
        rw [← hu, Memory.tagBits_of_form? hf.form?]
        exact hb
    exact ⟨s.heap, l, a, r, st, hr.sound.heap, ha, hout, hcalls, hone, hcalls.forwards ho⟩

end Tenure.Origin
