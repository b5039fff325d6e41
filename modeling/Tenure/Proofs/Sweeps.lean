import Tenure.Proofs.Forwarding

/-!
# Sweeps of the target

A sweep scans the target from a word on until it meets the cursor, which moves on while objects are
copied. The number of objects it may scan is bounded only so that it is a function; the bound never
ends it. Main statement: `Calls.sweeps`, a sweep over direct objects ends at the cursor with each of
them scanned once, and then none of their slots refers into the source or to an indirection.
-/

namespace Tenure

namespace Evacuation

/-- A sweep from word `k` on has scanned the objects at the words in the list and has come to the
word and the state given last. Each of these words was below the cursor and held the header of a
direct object, and no step led past the cursor. -/
inductive Scans (e : Evacuation) (k : Nat) (s : CopyState) : List Nat → Nat → CopyState → Prop
  | start : Scans e k s [] k s
  | next {ks : List Nat} {j a words : Nat} {t t' : CopyState} {f : Form} : Scans e k s ks j t →
      t.target.wordAt j = .ok a → t.memory.form? e.table a = some f →
      e.scanObject a t = .ok () t' → t'.memory.extent e.table e.padding a = .ok words →
      0 < words → j + words ≤ t.target.cursor → t.target.cursor ≤ t'.target.cursor →
      Scans e k s (ks ++ [j]) (j + words) t'

variable {e : Evacuation} {s t : CopyState} {ks : List Nat} {k j n : Nat}

/-- Each object that was scanned has a word. -/
theorem Scans.length_le (h : e.Scans k s ks j t) : k + ks.length ≤ j := by
  induction h with
  | start => exact Nat.le_refl k
  | next _ _ _ _ _ hw _ _ ih =>
    rw [List.length_append, List.length_singleton]
    omega

/-- The scan goes on where a sweep has come to. -/
theorem Scans.scanUpTo_eq (h : e.Scans k s ks j t) (n : Nat) :
    e.scanUpTo (ks.length + n) k s = e.scanUpTo n j t := by
  induction h generalizing n with
  | start => rw [List.length_nil, Nat.zero_add]
  | @next ks j a words t t' f _ hat _ hscan hext _ _ _ ih =>
    rw [Region.wordAt] at hat
    split at hat
    · next hlt =>
      obtain rfl := Except.ok.inj hat
      rw [List.length_append, List.length_singleton, Nat.add_assoc, Nat.add_comm 1 n, ih]
      simp only [scanUpTo, if_pos hlt, bind, EStateM.bind, hscan, CopyM.inspect, hext, attempt]
    · cases hat

/-- A sweep that has come to the cursor is a scan, however many more objects that might scan. -/
theorem Scans.scanUpTo_of_end (h : e.Scans k s ks t.target.cursor t) (hn : ks.length ≤ n) :
    e.scanUpTo n k s = .ok () t := by
  rw [show n = ks.length + (n - ks.length) by omega, h.scanUpTo_eq]
  cases n - ks.length with
  | zero => rfl
  | succ m => simp only [scanUpTo, if_neg (Nat.lt_irrefl _)]

/-- A scan that fails does so also if it may scan more objects. -/
theorem scanUpTo_of_error {fault : Fault} (h : e.scanUpTo n k s = .error fault t) (m : Nat) :
    e.scanUpTo (n + m) k s = .error fault t := by
  induction n generalizing k s with
  | zero => cases h
  | succ n ih =>
    rw [Nat.add_right_comm]
    simp only [scanUpTo, bind, EStateM.bind] at h ⊢
    split at h
    · next hlt =>
      rw [if_pos hlt]
      cases hscan : e.scanObject (s.target.start + k) s with
      | error e' t' =>
        rw [hscan] at h
        exact h
      | ok u t' =>
        rw [hscan] at h
        simp only [CopyM.inspect] at h ⊢
        cases hext : t'.memory.extent e.table e.padding (s.target.start + k) with
        | error e' =>
          rw [hext] at h
          exact h
        | ok words =>
          rw [hext] at h
          exact ih h
    · cases h

end Evacuation

namespace Origin

/-- What a sweep from word `k` on leaves. -/
structure SweptFrom (o : Origin) (k : Nat) (st st' : CopyState) (ts : List Span) : Prop where
  /-- The objects from word `k` on fill the target up to the cursor. -/
  spans : st'.memory.spans o.pass.table o.pass.padding st'.target.capacity
    (st'.target.start + k) (st'.target.start + st'.target.cursor) = ts
  tiles : Tiles ts (st'.target.start + k) (st'.target.start + st'.target.cursor)
  /-- They were scanned one after the other, and the last step led to the cursor. -/
  scans : ∃ ks, o.pass.Scans k st ks st'.target.cursor st' ∧
    ts.map Span.start = ks.map (st'.target.start + ·)
  once : (ts.map Span.start).Nodup
  /-- No slot of them refers into the source or to an indirection. -/
  firm : ∀ t ∈ ts, ∃ slots, st'.memory.slots o.pass.table t.start = .ok slots ∧
    ∀ x ∈ slots.refs st'.memory, o.pass.source.contains x = false ∧ st'.memory.hop? x = none

/-- A sweep has scanned these objects so far. -/
structure Sweeping (o : Origin) (k : Nat) (st : CopyState) (done cs : Copies) (s : CopyState) :
    Prop where
  scans : ∃ ks j, o.pass.Scans k st ks j s ∧
    Tiles (done.map Prod.snd) (o.target.start + k) (o.target.start + j) ∧
    done.map (fun c ↦ c.2.start) = ks.map (o.target.start + ·)
  finished : ∀ c ∈ done, ∃ d f g, o.Stands cs d c.2 f g ∧ o.Finished cs s.memory d c.2 f g

variable {o : Origin} {cs cs' done : Copies} {log : List (Nat × Nat)} {m : Memory}
  {target : Region} {st st' st'' : CopyState} {s t : Span} {f g : Form} {k : Nat} {os : List Span}

section Sound

variable (ho : o.Sound)
include ho

/-- The slots of an object with updated slots refer to direct objects outside the source. -/
theorem Finished.refs (h : o.Holds cs m target) (hs : o.Stands cs s t f g)
    (hf : o.Finished cs m s t f g) {x : Nat} (hx : x ∈ (g.slots t.start).refs m) :
    o.pass.source.contains x = false ∧ m.hop? x = none := by
  have hlink : g.tail = .outOfLine → m.read (g.cell m t.start .link) ≠ Word.null := by
    intro hg hz
    have hcl := (hf .link (.inr ⟨rfl, hg⟩)).clean ho h
    obtain ⟨b, k, tb, -, -, -, -, -, -, hr, href, -⟩ := h.link ho hs hg hcl
    rw [← hr, hz] at href
    cases href
  obtain ⟨p, hp, hx⟩ := List.mem_filterMap.mp hx
  obtain ⟨part, hpart, rfl⟩ := (Form.mem_list_slots hlink).mp hp
  exact (hf part hpart).firm ho h hx

/-- One more object is scanned. -/
theorem Sweeping.step {c : Span × Span} (hi : o.Sweeping k st done cs st')
    (h : o.Holds cs st'.memory st'.target) (h' : o.Holds cs' st''.memory st''.target)
    (hadv : o.Advance cs st' cs' st'') (hu : o.Updates cs st'.memory cs' st''.memory)
    (hs : o.Stands cs s c.2 f g) (hscan : o.pass.scanObject c.2.start st' = .ok () st'')
    (hfin : o.Finished cs' st''.memory s c.2 f g)
    (htiles : Tiles (done.map Prod.snd) (o.target.start + k) c.2.start)
    (hle : c.2.stop ≤ o.target.start + st'.target.cursor) :
    o.Sweeping k st (done ++ [c]) cs' st'' := by
  obtain ⟨ks, j, hsc, ht, hks⟩ := hi.scans
  have hat : c.2.start = o.target.start + j := htiles.unique ht
  have hwords := hs.words_eq ho h.plan
  have hpos := hs.words_pos ho h.plan
  have hs' := hs.mono hadv.copies.subset
  simp only [Span.stop] at hle
  refine ⟨⟨ks ++ [j], j + c.2.words, ?_, ?_, ?_⟩, fun c' hc' ↦ ?_⟩
  · refine hsc.next (a := c.2.start) ?_ (h.form? hs) hscan ?_ hpos (by omega) ?_
    · rw [Region.wordAt, if_pos (by omega), h.start, hat]
    · rw [Memory.extent_of_form? _ (h'.form? hs'), hwords]
    · obtain ⟨ds, rfl⟩ := hadv.copies
      have := (h.tiles_new h').le
      omega
  · rw [List.map_append, tiles_append]
    refine ⟨_, htiles, tiles_singleton.mpr ⟨rfl, hpos, ?_⟩⟩
    rw [Span.stop, hat, Nat.add_assoc]
  · rw [List.map_append, List.map_append, hks, List.map_singleton, List.map_singleton, hat]
  · rcases List.mem_append.mp hc' with hc' | hc'
    · obtain ⟨d, f', g', hd, hf'⟩ := hi.finished c' hc'
      exact ⟨d, f', g', hd.mono hadv.copies.subset,
        hf'.later ho h h' hadv.toLater hu hd⟩
    · obtain rfl := List.mem_singleton.mp hc'
      exact ⟨s, f, g, hs', hfin⟩

/-- A sweep that has come to the cursor leaves the target as it should be. -/
theorem Sweeping.sweptFrom (hi : o.Sweeping k st done cs st') (h : o.Holds cs st'.memory st'.target)
    (ht : Tiles (done.map Prod.snd) (o.target.start + k)
      (o.target.start + st'.target.cursor)) :
    o.SweptFrom k st st' (done.map Prod.snd) := by
  obtain ⟨ks, j, hsc, htj, hks⟩ := hi.scans
  have hj : j = st'.target.cursor := by
    have := htj.unique ht
    omega
  subst hj
  rw [← h.start] at ht hks
  have hle := st'.target.cursor_le
  constructor
  case spans =>
    refine ht.spans_eq (by omega) fun t hm ↦ ?_
    obtain ⟨c, hc, rfl⟩ := List.mem_map.mp hm
    obtain ⟨d, f, g, hd, -⟩ := hi.finished c hc
    rw [Memory.extent_of_form? _ (h.form? hd), hd.words_eq ho h.plan]
  case tiles => exact ht
  case scans => exact ⟨ks, hsc, by rw [List.map_map, ← hks]; rfl⟩
  case once =>
    refine List.pairwise_map.mpr (List.Pairwise.imp_of_mem ?_ ht.pairwise)
    intro t t' hm hm' hap he
    have := (ht.mem hm).2.2
    have := (ht.mem hm').2.2
    simp only [Span.Apart, Span.stop] at hap
    omega
  case firm =>
    intro t hm
    obtain ⟨c, hc, rfl⟩ := List.mem_map.mp hm
    obtain ⟨d, f, g, hd, hf⟩ := hi.finished c hc
    exact ⟨_, Memory.slots_of_form? (h.form? hd), fun x hx ↦ hf.refs ho h hd hx⟩

/-- A sweep over direct objects scans all of them and the copies made meanwhile, or gets stuck. -/
theorem ends_scanFrom_of_direct (h : o.Holds cs st.memory st.target) (hopen : o.Open)
    (hf : o.Fills st k os) (hd : ∀ t ∈ os, st.memory.hop? t.start = none) :
    Ends (o.pass.scanFrom k) st (fun _ st' ↦ st'.target.capacity = st.target.capacity ∧
      ∃ ts, o.SweptFrom k st st' ts) o.Stuck := by
  have hcontains : ∀ t ∈ os, o.pass.source.contains t.start = false :=
    fun _ ht ↦ hf.not_contains ho h ht
  obtain ⟨hos, htiles⟩ := hf
  rw [h.start] at htiles
  have hentries : Tiles ((os.map fun t ↦ (t, t)).map Prod.snd) (o.target.start + k)
      (o.target.start + st.target.cursor) := by
    simpa only [List.map_map, Function.comp_def, List.map_id'] using htiles
  refine (ends_scanUpTo_tiles (os.map fun t ↦ (t, t)) (fun cs c ↦ o.Standing cs c.2)
    (fun done cs' s ↦ o.Sweeping k st done cs' s) (fun _ _ hp hc ↦ hp.standing hc)
    (fun _ _ _ hcs hc ↦ hc.mono hcs.subset) (fun done cs' c st' h' hc hi hdone hle ↦ ?_) h
    ⟨⟨[], k, .start, rfl, rfl⟩, by simp⟩ (fun c hc ↦ ?_) hentries (by omega)).imp ?_
  · obtain ⟨d, f, g, hs⟩ := hc
    refine ((ends_scanObject_finished ho h' hs fun _ ↦ hopen.dueSlot ho h' hs).and
      (ends_self _ _)).mono ?_ fun _ _ hb ↦ hb.1
    rintro _ st'' ⟨⟨cs'', h'', hadv, ⟨hfin, hu⟩, -⟩, hscan⟩
    refine ⟨?_, cs'', h'', hadv, hi.step ho h' h'' hadv hu hs hscan hfin hdone hle⟩
    rw [Memory.extent_of_form? _ (h''.form? (hs.mono hadv.copies.subset)), hs.words_eq ho h'.plan]
  · obtain ⟨t, ht, rfl⟩ := List.mem_map.mp hc
    exact h.standing ho (hos t ht) (hd t ht) (hcontains t ht)
  · rintro _ st' ⟨cs', h', -, ds, rfl, hi⟩
    refine ⟨by rw [h'.capacity, h.capacity], _, hi.sweptFrom ho h' ?_⟩
    rw [List.map_append, tiles_append]
    exact ⟨_, hentries, h.tiles_new h'⟩

end Sound

/-- Calls fill the target with direct objects from its old end on. -/
theorem Calls.exists_fills (hc : o.Calls log st) (ho : o.Sound) :
    ∃ os, o.Fills st o.target.cursor os ∧ ∀ t ∈ os, st.memory.hop? t.start = none := by
  obtain ⟨cs, h⟩ := hc.opened.exists_follows ho.opened open_opened
  have hh : o.opened.Holds cs st.memory st.target := h.holds
  have htiles := hh.plan.tiles
  refine ⟨cs.map Prod.snd, ⟨fun t ht ↦ ?_, ?_⟩, fun t ht ↦ ?_⟩
  · exact hh.present_eq ▸ List.mem_append_right _ ht
  · rw [hh.start] at htiles ⊢
    exact htiles
  · obtain ⟨c, hc, rfl⟩ := List.mem_map.mp ht
    obtain ⟨d, f, g, hs⟩ := hh.plan.standing hc
    exact Memory.hop?_of_form? (hh.form? hs)

/-- What a reference was evacuated to may be scanned. -/
theorem Calls.scannable (hc : o.Calls log st) (ho : o.Sound) {e : Nat × Nat} (he : e ∈ log) :
    o.Scannable st e.2 := by
  obtain ⟨cs, h⟩ := hc.opened.exists_follows ho.opened open_opened
  obtain ⟨d, f, hd, -, hr, hn⟩ := h.log e he
  have hh : o.opened.Holds cs st.memory st.target := h.holds
  rw [hr] at hn
  obtain ⟨t, g, ht, hcur⟩ := hh.plan.stands ho.opened hd hn
  rw [hr, ← hcur]
  rw [← hcur] at hn
  refine ⟨⟨t, ?_, rfl⟩, Memory.hop?_of_form? (hh.form? ht), hn⟩
  show t ∈ o.opened.present st
  rw [hh.present_eq]
  rcases mem_arrived.mp ht.mem_arrived with hout | ⟨s, hs⟩
  · exact List.mem_append_left _ (mem_objects.mpr (.inr hout))
  · exact List.mem_append_right _ (List.mem_map.mpr ⟨_, hs, rfl⟩)

end Origin

/-! ### A run -/

/-- The reference of a root may be evacuated first. -/
theorem Heap.Sound.calls_root {h : Heap} {l : Census} {a r : Nat} {st : CopyState}
    (hs : h.Sound l) (ha : a ∈ h.roots.toList)
    (he : (h.epochOrigin l).pass.evacuate a
      { memory := h.memory, target := h.semispace.active } = .ok r st) :
    (h.epochOrigin l).Calls [(a, r)] st := by
  obtain ⟨⟨u, hu, rfl⟩, -, v, f, hf, hv, hb⟩ := (hs.roots a ha).denotes
  refine .evacuate .start ⟨⟨u, List.mem_append_left _ hu, rfl⟩, ?_⟩ he
  show (h.memory.header (h.memory.resolve u.start)).tagBits ≠ blockTag
  rw [← hv, Memory.tagBits_of_form? hf.form?]
  exact hb

namespace Mutator.Sample

/-- No tails are moved inline. -/
def blockSettings : Settings := { smallSettings with compactTails := false }

/-- Two young objects that refer to themselves and to each other by fields and by units in
blocks. -/
def cycleProgram : List (Instr × Option String) :=
  [(.allocate 1 1 none, some "first"), (.makeRoot (.register "first"), none),
    (.allocate 1 2 none, some "second"), (.setPtr (.root 0) 1 (.register "second"), none),
    (.setTailPtr (.root 0) 0 (.register "second"), none),
    (.setPtr (.register "second") 0 (.register "second"), none),
    (.setTailPtr (.register "second") 1 (.root 0), none)]

/-- The first of the two objects is evacuated, and the pass goes on with its copy in some way. The
states after each of both. -/
def cycleCalls (next : Origin → Nat → CopyM Unit) (h : Heap) :
    Option (Nat × Nat × CopyState × CopyState) := do
  let o := h.epochOrigin {}
  let a ← h.roots.toList.head?
  match o.pass.evacuate a { memory := o.memory, target := o.target } with
  | .error _ _ => none
  | .ok r st =>
    match next o r st with
    | .error _ _ => none
    | .ok _ st' => some (a, r, st, st')

/-- How many objects were copied after each of both. -/
def cycleCounts (next : Origin → Nat → CopyM Unit) : Option (Option (Nat × Nat)) :=
  (endOf blockSettings cycleProgram).map fun s ↦ (cycleCalls next s.heap).map fun c ↦
    (c.2.2.1.tally.objects, c.2.2.2.tally.objects)

private theorem cycleProgram_isSome : (endOf blockSettings cycleProgram).isSome = true := by
  decide +kernel

/-- The heap of the two objects, and the calls of a pass on it. What the pass goes on with does not
depend on which objects there are. -/
theorem exists_cycleCalls (next : Origin → Nat → CopyM Unit) {n n' : Nat}
    (hnext : ∀ h l, next (Heap.epochOrigin h l) = next (Heap.epochOrigin h {}))
    (hc : cycleCounts next = some (some (n, n'))) :
    ∃ (h : Heap) (l : Census) (a r : Nat) (st st' : CopyState),
      h.Sound l ∧ (h.epochOrigin l).Calls [(a, r)] st ∧ st.tally.objects = n ∧
      next (h.epochOrigin l) r st = .ok () st' ∧ st'.tally.objects = n' := by
  obtain ⟨s, l, hs, hr⟩ := reaches_of_isSome cycleProgram_isSome
  rw [cycleCounts, hs, Option.map_some, Option.some.injEq, Option.map_eq_some_iff] at hc
  obtain ⟨⟨a, r, st, st'⟩, hcalls, hcount⟩ := hc
  obtain ⟨hn, hn'⟩ := Prod.mk.inj hcount
  rw [cycleCalls, Option.bind_eq_bind, Option.bind_eq_some_iff] at hcalls
  obtain ⟨b, hb, hcalls⟩ := hcalls
  cases he : (s.heap.epochOrigin {}).pass.evacuate b
      { memory := (s.heap.epochOrigin {}).memory, target := (s.heap.epochOrigin {}).target } with
  | error e st₁ =>
    simp only [he] at hcalls
    cases hcalls
  | ok r₁ st₁ =>
    simp only [he] at hcalls
    cases hsc : next (s.heap.epochOrigin {}) r₁ st₁ with
    | error e st₂ =>
      simp only [hsc] at hcalls
      cases hcalls
    | ok u st₂ =>
      simp only [hsc, Option.some.injEq, Prod.mk.injEq] at hcalls
      obtain ⟨rfl, rfl, rfl, rfl⟩ := hcalls
      rw [← hnext s.heap l] at hsc
      exact ⟨s.heap, l, b, r₁, st₁, st₂, hr.sound.heap,
        hr.sound.heap.calls_root (List.mem_of_mem_head? hb) he, hn, hsc, hn'⟩

end Mutator.Sample

/-! ### All sweeps -/

namespace Origin

variable {o : Origin} {log : List (Nat × Nat)} {st : CopyState} {k : Nat} {os : List Span}

/-- After any calls of a pass, if direct objects fill the target from word `k` on, then a sweep from
there on ends: with room for what is in use of the source it succeeds, and otherwise it may find the
target exhausted, but nothing else. It never ends because of its bound. If it succeeds, the objects
from word `k` on were scanned once each, up to the cursor, and they are as they should be. -/
theorem Calls.sweeps (hc : o.Calls log st) (ho : o.Sound) (hf : o.Fills st k os)
    (hd : ∀ t ∈ os, st.memory.hop? t.start = none) :
    (o.pass.source.cursor ≤ o.target.free → ∃ st', o.pass.scanFrom k st = .ok () st') ∧
    (∀ e st', o.pass.scanFrom k st = .error e st' →
      ∃ needed free, e = .fatal (.exhausted needed free)) ∧
    (∀ n, st.target.capacity ≤ n → o.pass.scanUpTo n k st = o.pass.scanFrom k st) ∧
    ∀ st', o.pass.scanFrom k st = .ok () st' → ∃ ts, o.SweptFrom k st st' ts := by
  obtain ⟨cs, h⟩ := hc.opened.exists_follows ho.opened open_opened
  have hends := ends_scanFrom_of_direct ho.opened h.holds open_opened hf hd
  refine ⟨fun hroom ↦ ?_, fun e st' he ↦ ?_, fun n hn ↦ ?_, fun st' he ↦ ?_⟩
  · obtain ⟨_, st', he, -⟩ := (hends.mono (fun _ _ hg ↦ hg)
      fun _ _ hb ↦ hb.not_roomy ho.opened hroom).exists_eq_ok
    exact ⟨st', he⟩
  · obtain ⟨-, -, -, -, -, -, -, -, -, rfl⟩ := hends.of_eq_error he
    exact ⟨_, _, rfl⟩
  · cases he : o.pass.scanFrom k st with
    | error e st' =>
      rw [show n = st.target.capacity + (n - st.target.capacity) by omega]
      exact Evacuation.scanUpTo_of_error he _
    | ok u st' =>
      obtain ⟨hcap, ts, hs⟩ := hends.of_eq_ok he
      obtain ⟨ks, hks, -⟩ := hs.scans
      have := hks.length_le
      have := st'.target.cursor_le
      exact hks.scanUpTo_of_end (by omega)
  · obtain ⟨-, ts, hs⟩ := hends.of_eq_ok he
    exact ⟨ts, hs.spans, hs.tiles, hs.scans, hs.once, hs.firm⟩

open Mutator in
/-- A sweep after one object was evacuated, which copies the one that it refers to and both
blocks. -/
theorem sweeps_sample : ∃ (h : Heap) (l : Census) (a r : Nat) (st st' : CopyState)
    (os ts : List Span), h.Sound l ∧ (h.epochOrigin l).Calls [(a, r)] st ∧
    (h.epochOrigin l).Fills st h.semispace.active.cursor os ∧
    (∀ t ∈ os, st.memory.hop? t.start = none) ∧ st.tally.objects = 1 ∧
    (h.epochOrigin l).pass.scanFrom h.semispace.active.cursor st = .ok () st' ∧
    st'.tally.objects = 4 ∧
    (h.epochOrigin l).SweptFrom h.semispace.active.cursor st st' ts := by
  obtain ⟨h, l, a, r, st, st', hs, hc, hone, hsc, hfour⟩ := Sample.exists_cycleCalls
    (fun o _ ↦ o.pass.scanFrom o.target.cursor) (fun _ _ ↦ rfl)
    (show Sample.cycleCounts _ = some (some (1, 4)) by decide +kernel)
  obtain ⟨os, hf, hd⟩ := hc.exists_fills hs.epochOrigin
  obtain ⟨-, -, -, hall⟩ := hc.sweeps hs.epochOrigin hf hd
  obtain ⟨ts, hts⟩ := hall st' hsc
  exact ⟨h, l, a, r, st, st', os, ts, hs, hc, hf, hd, hone, hsc, hfour, hts⟩

end Origin

end Tenure
