import Tenure.RootStack
import Mathlib.Data.Finset.Max
import Mathlib.Data.List.Sort

/-!
# Roots name their own entries

A root knows only a depth. As long as the stack is touched through roots alone, each root that was
not dropped still names the entry that was made for it, also after drops in the wrong order, which
leave entries without a root behind. Main statements: `run_roots`, which compares the stack with a
ledger kept by the numbers of the roots, and `unwinding_restores`.
-/

namespace Tenure

variable {α : Type}

/-! ## Unwinding -/

namespace RootStack

/-- Put references on top, the last of them uppermost. -/
def pushAll (s : RootStack α) (raw : List α) : RootStack α := raw.foldl push s

/-- Make a root for each of some references. -/
def rootAll (as : List α) : StateM (RootStack α) (List Root) := as.mapM fun a s ↦ s.root a

/-- Raw entries stand on top of what was there. -/
@[simp] theorem toList_pushAll (s : RootStack α) (raw : List α) :
    (s.pushAll raw).toList = s.toList ++ raw := by
  induction raw generalizing s with
  | nil => simp [pushAll]
  | cons a raw ih => simpa [pushAll] using ih (s.push a)

/-- A push adds one entry. -/
@[simp] theorem size_push (s : RootStack α) (a : α) : (s.push a).size = s.size + 1 := by
  simp [← length_toList]

/-- The stack grows by the references, and the roots name the new entries from the lowest up. -/
theorem rootAll_eq (s : RootStack α) (as : List α) :
    rootAll as s = ((List.range' s.size as.length).map Root.mk, s.pushAll as) := by
  induction as generalizing s with
  | nil => rfl
  | cons a as ih =>
    have hcons : rootAll (a :: as) s =
        (⟨s.size⟩ :: (rootAll as (s.push a)).1, (rootAll as (s.push a)).2) := by
      simp only [rootAll, List.mapM_cons]
      rfl
    rw [hcons, ih, size_push, List.length_cons, List.range'_succ, List.map_cons]
    rfl

/-- Dropping roots one after the other while a failure is being unwound never fails. -/
theorem forM_drop_unwinding (s : RootStack α) (roots : List Root) :
    roots.forM (Root.drop true) s = .ok () (s.unwind roots) := by
  induction roots generalizing s with
  | nil => rfl
  | cons r roots ih => exact ih (s.abandon r)

private theorem foldl_depth_eq {roots : List Root} {lowest : Root} {n : Nat}
    (hl : lowest ∈ roots ∨ n = lowest.depth) (hle : ∀ r ∈ roots, lowest.depth ≤ r.depth)
    (hn : lowest.depth ≤ n) :
    roots.foldl (fun depth r ↦ min depth r.depth) n = lowest.depth := by
  induction roots generalizing n with
  | nil => simpa using hl
  | cons r roots ih =>
    have hr := hle r List.mem_cons_self
    rw [List.foldl_cons]
    refine ih ?_ (fun r' h ↦ hle r' (List.mem_cons_of_mem _ h)) (by omega)
    rcases hl with hl | hl
    · rcases List.mem_cons.mp hl with rfl | hl
      · exact .inr (by omega)
      · exact .inl hl
    · exact .inr (by omega)

private theorem exists_lowest {roots : List Root} (hne : roots ≠ []) :
    ∃ lowest ∈ roots, ∀ r ∈ roots, lowest.depth ≤ r.depth := by
  obtain ⟨lowest, hmem, hle⟩ :=
    roots.toFinset.exists_min_image Root.depth (List.toFinset_nonempty_iff _ |>.mpr hne)
  exact ⟨lowest, List.mem_toFinset.mp hmem, fun r h ↦ hle r (List.mem_toFinset.mpr h)⟩

/-- Unwinding leaves what lies below the lowest root, whatever was pushed above. -/
theorem toList_unwind_pushAll {s : RootStack α} {order : List Root} {lowest : Root}
    (raw : List α) (hmem : lowest ∈ order) (hle : ∀ r ∈ order, lowest.depth ≤ r.depth)
    (hlt : lowest.depth ≤ s.size) :
    ((s.pushAll raw).unwind order).toList = s.toList.take lowest.depth := by
  have hlen := s.length_toList
  rw [toList_unwind, toList_pushAll, foldl_depth_eq (.inl hmem) hle (by simp; omega),
    List.take_append_of_le_length (by omega)]

/-- While a failure is being unwound, some roots are dropped in any order. None of the drops fails,
and what is left are the entries below the lowest root. So if the roots were just made, and
whatever was pushed above them, the stack is as it was before. -/
theorem unwinding_restores (s : RootStack α) :
    (∀ (roots order : List Root) (raw : List α), roots ≠ [] → (∀ r ∈ roots, r.depth < s.size) →
      order.Perm roots → ∃ lowest ∈ roots, (∀ r ∈ roots, lowest.depth ≤ r.depth) ∧
        ∃ s', order.forM (Root.drop true) (s.pushAll raw) = .ok () s' ∧
          s'.toList = s.toList.take lowest.depth) ∧
    ∀ (as raw : List α) (order : List Root), as ≠ [] → order.Perm (rootAll as s).1 →
      order.forM (Root.drop true) ((rootAll as s).2.pushAll raw) = .ok () s := by
  constructor
  · intro roots order raw hne hlt ho
    obtain ⟨lowest, hmem, hle⟩ := exists_lowest hne
    exact ⟨lowest, hmem, hle, _, forM_drop_unwinding _ order, toList_unwind_pushAll raw
      (ho.mem_iff.mpr hmem) (fun r h ↦ hle r (ho.mem_iff.mp h)) (hlt lowest hmem).le⟩
  · intro as raw order hne ho
    rw [rootAll_eq] at ho ⊢
    have hmem : ∀ r, r ∈ order ↔ s.size ≤ r.depth ∧ r.depth < s.size + as.length := by
      intro r
      cases r
      simp [ho.mem_iff]
    have hpos := List.length_pos_iff.mpr hne
    have hlen := s.length_toList
    have hlowest : ⟨s.size⟩ ∈ order := (hmem _).mpr ⟨le_rfl, by simpa using hpos⟩
    have hlist := toList_unwind_pushAll (s := s.pushAll as) raw hlowest
      (fun r h ↦ ((hmem r).mp h).1) (by simp [← length_toList])
    rw [toList_pushAll, ← hlen, List.take_left] at hlist
    rw [forM_drop_unwinding, ext_toList hlist]

/-- Two roots on a stack of three entries with one more on top, dropped lowest first, and three
roots dropped in an order that is neither theirs nor its reverse. -/
theorem unwinding_restores_sample : ∃ s s' : RootStack Nat,
    s.toList = [8, 16, 24] ∧ s'.toList = [8] ∧
    [⟨1⟩, ⟨2⟩].forM (Root.drop true) (s.pushAll [1]) = .ok () s' ∧
    [⟨4⟩, ⟨3⟩, ⟨5⟩].forM (Root.drop true) ((rootAll [32, 40, 48] s).2.pushAll [1, 2]) =
      .ok () s := by
  obtain ⟨hset, hmade⟩ := unwinding_restores (RootStack.mk #[8, 16, 24])
  obtain ⟨lowest, hmem, hle, s', he, hlist⟩ :=
    hset [⟨2⟩, ⟨1⟩] [⟨1⟩, ⟨2⟩] [1] (by decide) (by decide) (by decide)
  have hlowest : lowest.depth = 1 := by
    have hone := hle ⟨1⟩ (by decide)
    simp only [List.mem_cons, List.not_mem_nil, or_false] at hmem
    rcases hmem with rfl | rfl
    · exact absurd hone (by decide)
    · rfl
  exact ⟨_, s', rfl, by rw [hlist, hlowest]; rfl, he,
    hmade [32, 40, 48] [1, 2] _ (by decide) (by decide)⟩

end RootStack

/-! ## Runs of a program that touches the stack through roots -/

/-- What a program does with roots and what a collection does with the stack. Roots are numbered in
the order in which they are made. -/
inductive Use (α : Type) : Type 1
  | make (a : α)
  | get (n : Nat)
  | set (n : Nat) (a : α)
  | drop (n : Nat)
  /-- A visitor, which may keep a state of its own, goes through the entries. -/
  | mark {σ : Type} (visit : α → StateM σ α) (start : σ)

/-- What a use makes of the value of root `n`, which has the values `below` beneath it. -/
def Use.revalue (n : Nat) (below : List α) (a : α) : Use α → α
  | .set m b => if m = n then b else a
  | .mark visit start => (visit a (below.mapM visit start).2).1
  | _ => a

/-- The state that an operation leaves, whether or not it succeeds. -/
def stateAfter {ε σ β : Type} (x : EStateM ε σ β) (s : σ) : σ :=
  match x s with
  | .ok _ s' => s'
  | .error _ s' => s'

/-- A stack and the roots made on it, in the order in which they were made. A root that was dropped
is gone, also if the drop failed. -/
structure Scope (α : Type) where
  stack : RootStack α := {}
  roots : List (Option Root) := []

namespace Scope

/-- The root of a number, if it was made and not dropped. -/
def root? (s : Scope α) (n : Nat) : Option Root := s.roots[n]?.join

/-- The scope after a use. There is none if the use is of a root that is not there. -/
def step (s : Scope α) : Use α → Option (Scope α)
  | .make a => some ⟨(s.stack.root a).2, s.roots ++ [some (s.stack.root a).1]⟩
  | .get n => (s.root? n).map fun _ ↦ s
  | .set n a => (s.root? n).map fun r ↦ { s with stack := stateAfter (r.set a) s.stack }
  | .drop n => (s.root? n).map fun r ↦ ⟨stateAfter (r.drop false) s.stack, s.roots.set n none⟩
  | .mark visit start => some { s with stack := (s.stack.markM visit start).1 }

/-- The scope after some uses of an empty one. -/
def run (uses : List (Use α)) : Option (Scope α) := uses.foldlM step {}

end Scope

/-- What is stored for each root that has an entry, with its number, in the order in which the
roots were made. -/
structure Ledger (α : Type) where
  made : Nat := 0
  entries : List (Nat × α) := []

namespace Ledger

/-- No later root has an entry. -/
def Last (l : Ledger α) (n : Nat) : Prop := ∀ e ∈ l.entries, e.1 ≤ n

instance (l : Ledger α) (n : Nat) : Decidable (l.Last n) :=
  inferInstanceAs (Decidable (∀ e ∈ l.entries, e.1 ≤ n))

/-- What is stored for a root. -/
def value? (l : Ledger α) (n : Nat) : Option α := l.entries.lookup n

/-- The entries without that of one root. -/
def without (l : Ledger α) (n : Nat) : List (Nat × α) := l.entries.filter (·.1 ≠ n)

/-- The entries with another reference for one root. -/
def storing (l : Ledger α) (n : Nat) (a : α) : List (Nat × α) :=
  l.entries.map fun e ↦ if e.1 = n then (n, a) else e

/-- The entries as a visitor leaves them. -/
def visited {σ : Type} (l : Ledger α) (visit : α → StateM σ α) (start : σ) : List (Nat × α) :=
  (l.entries.mapM (fun e ↦ (e.1, ·) <$> visit e.2 : Nat × α → StateM σ (Nat × α)) start).1

/-- The ledger after a use. -/
def after (l : Ledger α) : Use α → Ledger α
  | .make a => ⟨l.made + 1, l.entries ++ [(l.made, a)]⟩
  | .get _ => l
  | .set n a => { l with entries := l.storing n a }
  | .drop n => if l.Last n then { l with entries := l.without n } else l
  | .mark visit start => { l with entries := l.visited visit start }

/-- The ledger of some uses. -/
def of (uses : List (Use α)) : Ledger α := uses.foldl after {}

end Ledger

/-! ## The stack and the ledger -/

section Entries

variable {entries : List (Nat × α)} {n : Nat} {a : α} {d : Nat}

private theorem lt_iff_of_increasing (hp : (entries.map Prod.fst).Pairwise (· < ·))
    {i j m : Nat} {b : α} (hi : entries[i]? = some (n, a)) (hj : entries[j]? = some (m, b)) :
    n < m ↔ i < j := by
  have hlt : ∀ {i j n m : Nat} {a b : α}, entries[i]? = some (n, a) → entries[j]? = some (m, b) →
      i < j → n < m := by
    intro i j n m a b hi hj hij
    obtain ⟨hil, hi⟩ := List.getElem?_eq_some_iff.mp hi
    obtain ⟨hjl, hj⟩ := List.getElem?_eq_some_iff.mp hj
    have hpair := List.pairwise_iff_getElem.mp hp i j (by simpa using hil) (by simpa using hjl) hij
    simpa [hi, hj] using hpair
  constructor
  · intro hnm
    rcases Nat.lt_trichotomy i j with h | rfl | h
    · exact h
    · rw [hi, Option.some.injEq, Prod.mk.injEq] at hj
      omega
    · exact absurd (hlt hj hi h) (by omega)
  · exact hlt hi hj

private theorem depth_eq_iff (hp : (entries.map Prod.fst).Pairwise (· < ·)) {i j m : Nat} {b : α}
    (hi : entries[i]? = some (n, a)) (hj : entries[j]? = some (m, b)) : n = m ↔ i = j := by
  have h := lt_iff_of_increasing hp hi hj
  have h' := lt_iff_of_increasing hp hj hi
  omega

private theorem lookup_of_getElem? (hp : (entries.map Prod.fst).Pairwise (· < ·))
    (hd : entries[d]? = some (n, a)) : entries.lookup n = some a := by
  obtain ⟨hdl, he⟩ := List.getElem?_eq_some_iff.mp hd
  refine List.lookup_eq_some_iff.mpr ⟨entries.take d, entries.drop (d + 1), ?_, ?_⟩
  · rw [← he, List.getElem_cons_drop, List.take_append_drop]
  · intro e hmem
    obtain ⟨i, hi⟩ := List.mem_iff_getElem?.mp hmem
    have hid : i < d := by
      have := (List.getElem?_eq_some_iff.mp hi).1
      simp only [List.length_take] at this
      omega
    rw [List.getElem?_take_of_lt hid] at hi
    have hne := mt (depth_eq_iff hp hd hi).mp (by omega)
    simpa using hne

end Entries

namespace Ledger

variable {l : Ledger α} {n : Nat} {a : α} {d : Nat}

/-- The numbers of the roots that have entries are in the order of creation, and all were made. -/
structure Ordered (l : Ledger α) : Prop where
  increasing : (l.entries.map Prod.fst).Pairwise (· < ·)
  lt : ∀ n ∈ l.entries.map Prod.fst, n < l.made

private theorem map_fst_storing : (l.storing n a).map Prod.fst = l.entries.map Prod.fst := by
  simp only [storing, List.map_map]
  refine List.map_congr_left fun e _ ↦ ?_
  by_cases he : e.1 = n <;> simp [he]

private theorem Ordered.storing_eq (ho : l.Ordered) {b : α} (hd : l.entries[d]? = some (n, b)) :
    l.storing n a = l.entries.set d (n, a) := by
  apply List.ext_getElem?
  intro i
  rw [storing, List.getElem?_map, List.getElem?_set]
  cases hi : l.entries[i]? with
  | none =>
    have := List.getElem?_eq_none_iff.mp hi
    split <;> simp
    omega
  | some e =>
    have heq := depth_eq_iff ho.increasing hd hi
    have := (List.getElem?_eq_some_iff.mp hi).1
    by_cases hdi : d = i
    · simp [hdi, this, (heq.mpr hdi).symm]
    · simp [hdi, Ne.symm (mt heq.mp hdi)]

/-- The last entry is that of the root made last among those that have entries. -/
theorem Ordered.last_iff (ho : l.Ordered) (hd : l.entries[d]? = some (n, a)) :
    l.Last n ↔ d = l.entries.length - 1 := by
  have hdl := (List.getElem?_eq_some_iff.mp hd).1
  constructor
  · intro hlast
    by_contra hne
    obtain ⟨e, he⟩ : ∃ e, l.entries[l.entries.length - 1]? = some e :=
      ⟨_, List.getElem?_eq_getElem (by omega)⟩
    have hlt := (lt_iff_of_increasing ho.increasing hd he).mpr (by omega)
    exact absurd (hlast e (List.mem_of_getElem? he)) (by omega)
  · intro hdepth e hmem
    obtain ⟨i, hi⟩ := List.mem_iff_getElem?.mp hmem
    have hil := (List.getElem?_eq_some_iff.mp hi).1
    have := lt_iff_of_increasing ho.increasing hd hi
    omega

private theorem Ordered.without_eq (ho : l.Ordered) (hd : l.entries[d]? = some (n, a))
    (hlast : l.Last n) : l.without n = l.entries.dropLast := by
  have hdl := (List.getElem?_eq_some_iff.mp hd)
  have hdepth := (ho.last_iff hd).mp hlast
  have hsplit : l.entries = l.entries.dropLast ++ [(n, a)] := by
    have hne : l.entries ≠ [] := by
      intro hnil
      simp [hnil] at hd
    rw [← List.dropLast_concat_getLast hne, List.getLast_eq_getElem]
    simp [← hdl.2, hdepth]
  have hkeep : l.entries.dropLast.filter (·.1 ≠ n) = l.entries.dropLast := by
    refine List.filter_eq_self.mpr fun e hmem ↦ ?_
    obtain ⟨i, hi⟩ := List.mem_iff_getElem?.mp hmem
    have hil := (List.getElem?_eq_some_iff.mp hi).1
    rw [List.length_dropLast] at hil
    rw [List.getElem?_dropLast, if_pos hil] at hi
    simpa using mt (depth_eq_iff ho.increasing hd hi).mp (by omega) ∘ Eq.symm
  rw [without]
  conv_lhs => rw [hsplit]
  rw [List.filter_append, hkeep]
  simp

/-- Other entries keep their depth when the last one goes. -/
theorem Ordered.getElem?_without (ho : l.Ordered) {m d' : Nat} {b : α}
    (hm : l.entries[d']? = some (m, b)) (hlast : l.Last m) (hd : l.entries[d]? = some (n, a))
    (hne : n ≠ m) : (l.without m)[d]? = some (n, a) := by
  have hlt := (List.getElem?_eq_some_iff.mp hd).1
  have hdepth := (ho.last_iff hm).mp hlast
  have hne' := mt (depth_eq_iff ho.increasing hd hm).mpr hne
  rw [ho.without_eq hm hlast, List.getElem?_dropLast, if_pos (by omega), hd]

section Visit

variable {σ : Type} {visit : α → StateM σ α} {start : σ}

private theorem mapM_cons_run {β γ : Type} (f : β → StateM σ γ) (b : β) (bs : List β) (start : σ) :
    (b :: bs).mapM f start =
      ((f b start).1 :: (bs.mapM f (f b start).2).1, (bs.mapM f (f b start).2).2) := by
  rw [List.mapM_cons]
  rfl

private theorem mapM_entries (entries : List (Nat × α)) (start : σ) :
    (entries.mapM (fun e ↦ (e.1, ·) <$> visit e.2 : Nat × α → StateM σ (Nat × α)) start).1 =
      (entries.map Prod.fst).zip ((entries.map Prod.snd).mapM visit start).1 := by
  induction entries generalizing start with
  | nil => rfl
  | cons e entries ih =>
    rw [mapM_cons_run, List.map_cons, List.map_cons, mapM_cons_run]
    exact congrArg (_ :: ·) (ih _)

private theorem length_mapM (as : List α) (start : σ) :
    (as.mapM visit start).1.length = as.length := by
  induction as generalizing start with
  | nil => rfl
  | cons a as ih => rw [mapM_cons_run, List.length_cons, ih, List.length_cons]

private theorem getElem?_mapM (as : List α) (start : σ) (d : Nat) :
    (as.mapM visit start).1[d]? =
      as[d]?.map fun a ↦ (visit a ((as.take d).mapM visit start).2).1 := by
  induction as generalizing start d with
  | nil => rfl
  | cons a as ih =>
    rw [mapM_cons_run]
    cases d with
    | zero => rfl
    | succ d =>
      rw [List.getElem?_cons_succ, List.getElem?_cons_succ, ih, List.take_succ_cons, mapM_cons_run]

private theorem map_fst_visited :
    (l.visited visit start).map Prod.fst = l.entries.map Prod.fst := by
  rw [visited, mapM_entries, List.map_fst_zip]
  rw [length_mapM, List.length_map, List.length_map]

private theorem map_snd_visited :
    (l.visited visit start).map Prod.snd = ((l.entries.map Prod.snd).mapM visit start).1 := by
  rw [visited, mapM_entries, List.map_snd_zip]
  rw [length_mapM, List.length_map, List.length_map]

/-- Each entry is replaced by what the visitor makes of it at its turn. -/
theorem getElem?_visited (hd : l.entries[d]? = some (n, a)) :
    (l.visited visit start)[d]? =
      some (n, (Use.mark visit start).revalue n ((l.entries.map Prod.snd).take d) a) := by
  rw [visited, mapM_entries, List.getElem?_zip_eq_some, getElem?_mapM, List.getElem?_map,
    List.getElem?_map, hd]
  exact ⟨rfl, rfl⟩

end Visit

end Ledger

namespace Scope

variable {s s' : Scope α} {l : Ledger α} {n : Nat} {r : Root} {a : α}

/-- The stack holds what the ledger says, and each root that is there names its own entry. -/
structure Keeps (s : Scope α) (l : Ledger α) : Prop where
  stack : s.stack.toList = l.entries.map Prod.snd
  made : s.roots.length = l.made
  ordered : l.Ordered
  own : ∀ {n r}, s.root? n = some r → (l.entries.map Prod.fst)[r.depth]? = some n

private theorem Keeps.entry (hk : s.Keeps l) (hr : s.root? n = some r) :
    ∃ a, l.entries[r.depth]? = some (n, a) := by
  have hn := hk.own hr
  rw [List.getElem?_map, Option.map_eq_some_iff] at hn
  obtain ⟨⟨_, a⟩, he, rfl⟩ := hn
  exact ⟨a, he⟩

private theorem Keeps.size_eq (hk : s.Keeps l) : s.stack.size = l.entries.length := by
  rw [← s.stack.length_toList, hk.stack, List.length_map]

private theorem Keeps.depth_lt (hk : s.Keeps l) (hr : s.root? n = some r) :
    r.depth < s.stack.size := by
  obtain ⟨a, hd⟩ := hk.entry hr
  exact hk.size_eq ▸ (List.getElem?_eq_some_iff.mp hd).1

/-- A root reads what the ledger has at its depth. -/
theorem Keeps.get_eq (hk : s.Keeps l) (hd : l.entries[r.depth]? = some (n, a)) :
    r.get s.stack = .ok a := by
  refine RootStack.get_eq_ok_iff.mpr ?_
  rw [hk.stack, List.getElem?_map, hd]
  rfl

/-- A root can always be set, and only its own entry is replaced. -/
theorem Keeps.set (hk : s.Keeps l) (hr : s.root? n = some r) (a : α) :
    ∃ stack, r.set a s.stack = .ok () stack ∧ stack.toList = (l.storing n a).map Prod.snd := by
  obtain ⟨b, hd⟩ := hk.entry hr
  cases hset : s.stack.set r.depth a with
  | error fault =>
    rw [RootStack.set, if_pos (hk.depth_lt hr)] at hset
    cases hset
  | ok stack =>
    refine ⟨stack, by rw [Root.set, hset], ?_⟩
    rw [(RootStack.set_eq_ok_iff.mp hset).2, hk.stack, hk.ordered.storing_eq hd, List.map_set]

/-- A root is on top exactly if no later root has an entry. -/
theorem Keeps.last_iff (hk : s.Keeps l) (hr : s.root? n = some r) :
    l.Last n ↔ r.depth = s.stack.size - 1 := by
  obtain ⟨a, hd⟩ := hk.entry hr
  rw [hk.ordered.last_iff hd, hk.size_eq]

private theorem Keeps.top_eq (hk : s.Keeps l) (hr : s.root? n = some r) :
    s.stack.top = s.stack.size - 1 := by
  have hlt := hk.depth_lt hr
  rw [RootStack.top, if_neg (by omega)]

/-- If no later root has an entry, a drop removes the entry of the root and no other. -/
theorem Keeps.drop_of_last (hk : s.Keeps l) (hr : s.root? n = some r) (hl : l.Last n) :
    ∃ stack, r.drop false s.stack = .ok () stack ∧
      stack.toList = (l.without n).map Prod.snd := by
  obtain ⟨a, hd⟩ := hk.entry hr
  have htop : r.depth = s.stack.top := by rw [hk.top_eq hr, (hk.last_iff hr).mp hl]
  cases hrel : s.stack.release r with
  | error fault =>
    rw [RootStack.release, if_pos htop] at hrel
    cases hrel
  | ok stack =>
    refine ⟨stack, by simp [Root.drop, hrel], ?_⟩
    rw [(RootStack.release_eq_ok_iff.mp hrel).2, hk.stack, hk.ordered.without_eq hd hl,
      List.map_dropLast]

/-- Otherwise the drop fails and changes nothing. -/
theorem Keeps.drop_of_not_last (hk : s.Keeps l) (hr : s.root? n = some r) (hl : ¬ l.Last n) :
    r.drop false s.stack =
      .error (.fatal (.rootImbalance (s.stack.size - 1) r.depth)) s.stack := by
  have htop : r.depth ≠ s.stack.top := by rwa [hk.top_eq hr, Ne, ← hk.last_iff hr]
  have hrel : s.stack.release r = .error (.fatal (.rootImbalance (s.stack.size - 1) r.depth)) := by
    rw [RootStack.release, if_neg htop, hk.top_eq hr]
  simp [Root.drop, hrel]

/-! ## Each use keeps the two together -/

private theorem keeps_empty : ({} : Scope α).Keeps {} where
  stack := rfl
  made := rfl
  ordered := ⟨.nil, fun _ h ↦ by cases h⟩
  own hr := by simp [root?] at hr

private theorem root?_append {stack : RootStack α} {r' : Root} :
    (Scope.mk stack (s.roots ++ [some r'])).root? n =
      if n = s.roots.length then some r' else s.root? n := by
  rcases Nat.lt_trichotomy n s.roots.length with h | rfl | h
  · rw [if_neg (by omega), root?, root?, List.getElem?_append_left h]
  · simp [root?]
  · rw [if_neg (by omega), root?, root?, List.getElem?_eq_none (by simp; omega),
      List.getElem?_eq_none (by omega)]

private theorem root?_set {stack : RootStack α} {m : Nat} :
    (Scope.mk stack (s.roots.set m none)).root? n = if n = m then none else s.root? n := by
  simp only [root?, List.getElem?_set]
  by_cases h : m = n
  · subst h
    by_cases hlt : m < s.roots.length <;> simp [hlt]
  · simp [h, Ne.symm h]

/-- Storing for roots that have entries disturbs neither the order nor the depths. -/
theorem Keeps.restored {stack : RootStack α} {entries : List (Nat × α)} (hk : s.Keeps l)
    (hstack : stack.toList = entries.map Prod.snd)
    (hkeys : entries.map Prod.fst = l.entries.map Prod.fst) :
    Keeps { s with stack } { l with entries } where
  stack := hstack
  made := hk.made
  ordered := ⟨by rw [hkeys]; exact hk.ordered.increasing, by rw [hkeys]; exact hk.ordered.lt⟩
  own hr := by rw [hkeys]; exact hk.own hr

private theorem Keeps.make (hk : s.Keeps l) (a : α) :
    Keeps ⟨(s.stack.root a).2, s.roots ++ [some (s.stack.root a).1]⟩ (l.after (.make a)) where
  stack := by simp [RootStack.root, Ledger.after, hk.stack]
  made := by simp [Ledger.after, hk.made]
  ordered := by
    constructor
    · simp only [Ledger.after, List.map_append, List.pairwise_append]
      refine ⟨hk.ordered.increasing, by simp, fun n hn m hm ↦ ?_⟩
      obtain rfl : m = l.made := by simpa using hm
      exact hk.ordered.lt n hn
    · intro n hn
      simp only [Ledger.after, List.map_append, List.mem_append] at hn ⊢
      rcases hn with hn | hn
      · exact Nat.lt_succ_of_lt (hk.ordered.lt n hn)
      · obtain rfl : n = l.made := by simpa using hn
        exact Nat.lt_succ_self _
  own {n r} hr := by
    rw [root?_append] at hr
    simp only [Ledger.after, List.map_append]
    split at hr
    · next hn =>
      obtain rfl := Option.some.inj hr
      rw [hn, hk.made, RootStack.root, hk.size_eq]
      simp
    · have hlt := hk.depth_lt hr
      rw [hk.size_eq] at hlt
      rw [List.getElem?_append_left (by simpa using hlt)]
      exact hk.own hr

/-- A root is gone after its drop. If the drop succeeds, so is its entry. -/
theorem Keeps.drop (hk : s.Keeps l) (hr : s.root? n = some r) :
    Keeps ⟨stateAfter (r.drop false) s.stack, s.roots.set n none⟩ (l.after (.drop n)) := by
  -- The last root takes its entry along, and any other leaves the stack as it is.
  by_cases hl : l.Last n
  · obtain ⟨stack, he, hstack⟩ := hk.drop_of_last hr hl
    obtain ⟨a, hd⟩ := hk.entry hr
    have hkeys : (l.without n).map Prod.fst = (l.entries.map Prod.fst).dropLast := by
      rw [hk.ordered.without_eq hd hl, List.map_dropLast]
    rw [stateAfter, he, Ledger.after, if_pos hl]
    refine ⟨hstack, by simpa using hk.made, ⟨?_, ?_⟩, ?_⟩
    · rw [hkeys]
      exact hk.ordered.increasing.sublist (List.dropLast_sublist _)
    · intro m hm
      rw [hkeys] at hm
      exact hk.ordered.lt m (List.mem_of_mem_dropLast hm)
    · intro m r' hr'
      rw [root?_set] at hr'
      split at hr'
      · cases hr'
      · next hne =>
        obtain ⟨b, hd'⟩ := hk.entry hr'
        rw [List.getElem?_map, hk.ordered.getElem?_without hd hl hd' hne]
        rfl
  · rw [stateAfter, hk.drop_of_not_last hr hl, Ledger.after, if_neg hl]
    refine ⟨hk.stack, by simpa using hk.made, hk.ordered, fun {m r'} hr' ↦ ?_⟩
    rw [root?_set] at hr'
    split at hr'
    · cases hr'
    · exact hk.own hr'

/-- One use of the stack is one entry in the ledger. -/
theorem Keeps.step {use : Use α} (hk : s.Keeps l) (h : s.step use = some s') :
    s'.Keeps (l.after use) := by
  cases use with
  | make a =>
    obtain rfl := Option.some.inj h
    exact hk.make a
  | get n =>
    obtain ⟨r, -, rfl⟩ := Option.map_eq_some_iff.mp h
    exact hk
  | set n a =>
    obtain ⟨r, hr, rfl⟩ := Option.map_eq_some_iff.mp h
    obtain ⟨stack, he, hstack⟩ := hk.set hr a
    rw [stateAfter, he]
    exact hk.restored hstack Ledger.map_fst_storing
  | drop n =>
    obtain ⟨r, hr, rfl⟩ := Option.map_eq_some_iff.mp h
    exact hk.drop hr
  | mark visit start =>
    obtain rfl := Option.some.inj h
    refine hk.restored ?_ Ledger.map_fst_visited
    rw [Ledger.map_snd_visited, ← hk.stack]
    rfl

/-- A root stays until it is dropped, and a use of another root does not change its value. -/
theorem Keeps.entry_step {use : Use α} (hk : s.Keeps l) (hr : s.root? n = some r)
    (hd : l.entries[r.depth]? = some (n, a)) (h : s.step use = some s') (hne : use ≠ .drop n) :
    s'.root? n = some r ∧
      (l.after use).entries[r.depth]? =
        some (n, use.revalue n (s.stack.toList.take r.depth) a) := by
  cases use with
  | make b =>
    obtain rfl := Option.some.inj h
    have hlt : n < s.roots.length := by
      by_contra hge
      rw [root?, List.getElem?_eq_none (by omega)] at hr
      cases hr
    refine ⟨by rw [root?_append, if_neg hlt.ne, hr], ?_⟩
    exact (List.getElem?_append_left (List.getElem?_eq_some_iff.mp hd).1).trans hd
  | get m =>
    obtain ⟨r', -, rfl⟩ := Option.map_eq_some_iff.mp h
    exact ⟨hr, hd⟩
  | set m b =>
    obtain ⟨r', -, rfl⟩ := Option.map_eq_some_iff.mp h
    refine ⟨hr, ?_⟩
    simp only [Ledger.after, Ledger.storing, List.getElem?_map, hd, Option.map_some, Use.revalue]
    by_cases hm : n = m
    · simp [hm]
    · simp [hm, Ne.symm hm]
  | drop m =>
    obtain ⟨r', hr', rfl⟩ := Option.map_eq_some_iff.mp h
    have hnm : n ≠ m := fun he ↦ hne (he ▸ rfl)
    refine ⟨by rw [root?_set, if_neg hnm, hr], ?_⟩
    obtain ⟨b, hm⟩ := hk.entry hr'
    rw [Ledger.after]
    split
    · next hl => exact hk.ordered.getElem?_without hm hl hd hnm
    · exact hd
  | mark visit start =>
    obtain rfl := Option.some.inj h
    refine ⟨hr, ?_⟩
    rw [hk.stack]
    exact Ledger.getElem?_visited hd

/-- The ledger of a run tells what the stack holds. -/
theorem keeps_of_run {uses : List (Use α)} (h : run uses = some s) : s.Keeps (Ledger.of uses) := by
  suffices hs : ∀ (uses : List (Use α)) (s₀ : Scope α) (l : Ledger α), s₀.Keeps l →
      uses.foldlM Scope.step s₀ = some s → s.Keeps (uses.foldl Ledger.after l) from
    hs uses {} {} keeps_empty h
  intro uses
  induction uses with
  | nil =>
    intro s₀ l hk he
    obtain rfl := Option.some.inj he
    exact hk
  | cons use uses ih =>
    intro s₀ l hk he
    rw [List.foldlM_cons] at he
    obtain ⟨s₁, hstep, hrest⟩ := Option.bind_eq_some_iff.mp he
    exact ih s₁ _ (hk.step hstep) hrest

open Ledger in
/-- In every run of a program that touches the stack through roots alone, the stack holds what the
ledger says, one entry for a root, in the order of creation. A root that was not dropped reads what
is stored for it, and no use but its own drop takes that from it: what it reads next is changed by
storing for this root and by a visitor at the turn of its entry. A drop succeeds exactly if no later
root has an entry, which is if the root is on top; it removes the entry of the root and no other.
One that fails says so and changes nothing. -/
theorem run_roots {uses : List (Use α)} (h : run uses = some s) :
    s.stack.toList = (of uses).entries.map Prod.snd ∧
    ((of uses).entries.map Prod.fst).Pairwise (· < ·) ∧
    ∀ n r, s.root? n = some r →
      (∃ a, (of uses).value? n = some a ∧ r.get s.stack = .ok a ∧
        ∀ use s', s.step use = some s' → use ≠ .drop n → s'.root? n = some r ∧
          r.get s'.stack = .ok (use.revalue n (s.stack.toList.take r.depth) a)) ∧
      ((of uses).Last n ↔ r.depth = s.stack.size - 1) ∧
      ((of uses).Last n → ∃ stack, r.drop false s.stack = .ok () stack ∧
        stack.toList = ((of uses).without n).map Prod.snd) ∧
      (¬ (of uses).Last n → r.drop false s.stack =
        .error (.fatal (.rootImbalance (s.stack.size - 1) r.depth)) s.stack) := by
  have hk := keeps_of_run h
  refine ⟨hk.stack, hk.ordered.increasing, fun n r hr ↦
    ⟨?_, hk.last_iff hr, hk.drop_of_last hr, hk.drop_of_not_last hr⟩⟩
  obtain ⟨a, hd⟩ := hk.entry hr
  refine ⟨a, lookup_of_getElem? hk.ordered.increasing hd, hk.get_eq hd, ?_⟩
  intro use s' hstep hne
  obtain ⟨hr', hd'⟩ := hk.entry_step hr hd hstep hne
  exact ⟨hr', (hk.step hstep).get_eq hd'⟩

open Ledger in
/-- Root 1 is dropped while root 2 has an entry, and then root 2. The entry that root 1 left behind
keeps root 0 from being dropped, but not root 3. -/
theorem run_roots_sample : ∃ (uses : List (Use Nat)) (s : Scope Nat) (r₀ r₃ : Root),
    run uses = some s ∧ s.root? 0 = some r₀ ∧ s.root? 1 = none ∧ s.root? 3 = some r₃ ∧
    s.stack.toList = [140, 117, 50] ∧
    r₀.get s.stack = .ok 140 ∧ r₃.get s.stack = .ok 50 ∧
    r₀.drop false s.stack = .error (.fatal (.rootImbalance 2 0)) s.stack ∧
    ∃ stack, r₃.drop false s.stack = .ok () stack ∧ stack.toList = [140, 117] := by
  let uses : List (Use Nat) := [.make 8, .make 16, .make 24, .drop 1, .set 0 40,
    .mark (fun a k ↦ (a + k, k + 1)) 100, .drop 2, .make 50, .get 3]
  have hrun : run uses = some ⟨⟨#[140, 117, 50]⟩, [some ⟨0⟩, none, none, some ⟨2⟩]⟩ := rfl
  obtain ⟨hstack, -, hroots⟩ := run_roots hrun
  obtain ⟨⟨a, ha, hget, -⟩, -, -, hfail⟩ := hroots 0 ⟨0⟩ rfl
  obtain ⟨⟨b, hb, hget', -⟩, -, hdrop, -⟩ := hroots 3 ⟨2⟩ rfl
  obtain rfl := Option.some.inj ((show (of uses).value? 0 = some 140 from rfl).symm.trans ha)
  obtain rfl := Option.some.inj ((show (of uses).value? 3 = some 50 from rfl).symm.trans hb)
  obtain ⟨stack, he, hlist⟩ := hdrop (by decide)
  exact ⟨uses, _, ⟨0⟩, ⟨2⟩, rfl, rfl, rfl, rfl, hstack, hget, hget', hfail (by decide),
    stack, he, hlist⟩

end Scope

end Tenure
