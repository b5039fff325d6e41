import Tenure.Proofs.Encounters
import Tenure.Proofs.Outcome
import Tenure.Proofs.Pass.Progress
import Tenure.Proofs.View

/-!
# The steps of a copying pass

A step of a pass takes a state that holds to a later one, and it fails only if the target has no
room for a copy that is due. Main statements: `ends_evacuate_same`, evacuation gives the place where
the object is from then on; `ends_updateSlot_final`, a slot that was updated refers to that place.
-/

namespace Tenure

/-- The memory once an object of form `f` was copied. -/
def Evacuation.moved (e : Evacuation) (f : Form) (object copy : Nat) (m : Memory) : Memory :=
  let fixed := 1 + f.type.fields
  let m := if f.tail = .outOfLine ∧ e.compact then
    ((m.copy object copy fixed).copy (Word.toAddr (m.read (object + fixed)) + 1) (copy + fixed)
      f.size).writeHeader copy (.pack f.tag f.size .inline)
  else m.copy object copy ((e.shape f).words e.padding)
  m.redirect object copy

/-- Copying an object takes the words that its copy needs, or fails if there are too few. -/
theorem Evacuation.copyObject_eq {e : Evacuation} {f : Form} {object : Nat} {s : CopyState}
    (ht : e.table.lookup f.tag = .ok f.type) :
    e.copyObject object f.tag f.size f.tail s =
      match s.target.bump ((e.shape f).words e.padding) with
      | none => .error (.fatal (.exhausted ((e.shape f).words e.padding * wordBytes)
          s.target.freeBytes)) s
      | some (copy, target) => .ok copy {
          memory := e.moved f object copy s.memory
          target
          tally := s.tally + ⟨1, (e.shape f).words e.padding⟩ } := by
  have hw : f.type.words f.size
      (if decide (f.tail = .outOfLine ∧ e.compact = true) = true then .inline else f.tail)
        e.padding =
        (e.shape f).words e.padding := by
    simp only [decide_eq_true_eq, Form.words, shape]
    split <;> rfl
  simp only [copyObject, ht, attempt, bind, EStateM.bind, pure, CopyM.claim, hw]
  cases s.target.bump ((e.shape f).words e.padding) with
  | none => rfl
  | some c =>
    simp only [decide_eq_true_eq, moved]
    split
    · rfl
    · rfl

/-- An object that is not in the source stays where it is, and nothing changes. -/
theorem Evacuation.evacuate_of_not_contains {e : Evacuation} {a : Nat} {s : CopyState}
    (hn : e.source.contains (s.memory.resolve a) = false) :
    e.evacuate a s = .ok (s.memory.resolve a) s := by
  simp only [evacuate, hn, Bool.false_eq_true, if_false]

/-- The end of a chain that lies outside the source is not copied. -/
theorem Evacuation.evacuate_of_leads {e : Evacuation} {a d : Nat} {s : CopyState}
    (hl : s.memory.Leads a d) (hn : e.source.contains d = false) :
    e.evacuate a s = .ok d s := by
  rw [← hl.resolve] at hn ⊢
  exact evacuate_of_not_contains hn

-- The words once an object was copied from two ranges, and its header was rewritten.
private theorem read_inlined {m : Memory} {object block copy fixed size : Nat} (header : Header)
    (hobject : m.Mapped object) (hcopy : ∀ i < fixed + size, m.Mapped (copy + i))
    (hfixed : 0 < fixed) (hap : object + fixed ≤ copy ∨ copy + (fixed + size) ≤ object)
    (hapb : block + size ≤ copy ∨ copy + (fixed + size) ≤ block) (a : Nat) :
    ((((m.copy object copy fixed).copy block (copy + fixed) size).writeHeader copy header).redirect
      object copy).read a =
      if object = a then (Header.forward (Word.ofAddr copy)).word else
        if copy = a then header.word else
          if copy + fixed ≤ a ∧ a < copy + fixed + size then m.read (block + (a - (copy + fixed)))
          else if copy ≤ a ∧ a < copy + fixed then m.read (object + (a - copy))
          else m.read a := by
  have hr₁ : ∀ a, (m.copy object copy fixed).read a =
      if copy ≤ a ∧ a < copy + fixed then m.read (object + (a - copy)) else m.read a :=
    fun a ↦ Memory.read_copy a (fun i hi ↦ hcopy i (by omega)) (by omega)
  have hmapped : ∀ x, ((m.copy object copy fixed).copy block (copy + fixed) size).Mapped x ↔
      m.Mapped x := by
    intro x
    simp only [Memory.Mapped, Memory.endAddr_copy]
  have hr₂ : ((m.copy object copy fixed).copy block (copy + fixed) size).read a =
      if copy + fixed ≤ a ∧ a < copy + fixed + size then
        (m.copy object copy fixed).read (block + (a - (copy + fixed)))
      else (m.copy object copy fixed).read a := by
    refine Memory.read_copy a (fun i hi ↦ ?_) (by omega)
    rw [Nat.add_assoc]
    simp only [Memory.Mapped, Memory.endAddr_copy]
    exact hcopy _ (by omega)
  have hc : m.Mapped copy := hcopy 0 (by omega)
  rw [Memory.redirect, Memory.writeHeader, Memory.writeHeader, Memory.read_write,
    Memory.read_write, hr₂, hr₁ a]
  simp only [Memory.mapped_write, hmapped, hc, hobject, and_true]
  split
  · rfl
  · split
    · rfl
    · split
      · rw [hr₁, if_neg (by omega)]
      · rfl

namespace Origin

variable {o : Origin} {cs cs' cs'' ds : Copies} {m m' m'' : Memory} {target target' : Region}
  {s t u d : Span} {f g k : Form} {a i p q : Nat} {part : Part}

section Copied

variable (ho : o.Sound) (h : o.Holds cs m target) (hx : o.Next cs target target' s t f)
include ho h hx

private theorem apart_of_inside (hu : u ∈ o.inside) :
    u.start + u.words ≤ t.start ∨ t.start + t.words ≤ u.start := by
  have hfit := hx.cursor_le h
  have hstart := h.start
  have hat := hx.at_cursor
  have hle := h.plan.tiles.le
  have htw : 0 < t.words := by
    rw [hx.words]
    exact Form.words_pos _ _
  apply Span.apart_of_forall_ne (ho.wellFormed.nonempty u (mem_objects.mpr (.inl hu))) htw
  intro i hi j hj he
  have hout := ho.apart _ (ho.contains_inside hu hi)
  rw [he, ← Bool.not_eq_true, Region.mem_iff] at hout
  omega

private theorem mapped_next (hi : i < t.words) : m.Mapped (t.start + i) := by
  have hfit := hx.cursor_le h
  have hstart := h.start
  have hat := hx.at_cursor
  have hle := h.plan.tiles.le
  exact h.mapped_target ho (Region.mem_iff.mpr ⟨by omega, by omega⟩)

omit ho in
private theorem vacant_next (hi : i < t.words) : m.read (t.start + i) = 0 := by
  have hfit := hx.cursor_le h
  rw [hx.at_cursor, Nat.add_assoc]
  exact h.vacant _ (by omega) (by rw [h.capacity]; omega)

private theorem mapped_object : m.Mapped s.start :=
  h.mapped_iff.mpr (ho.wellFormed.mapped_start hx.object.mem)

private theorem copied_whole (hf : ¬ (f.tail = .outOfLine ∧ o.pass.compact = true)) :
    o.Copied m ((m.copy s.start t.start t.words).redirect s.start t.start) s t f := by
  have hsh : o.pass.shape f = f := by rw [Evacuation.shape, if_neg hf]
  have hw : t.words = s.words := by
    rw [hx.words, hsh, ho.wellFormed.extent s f hx.object]
  have hwp : 0 < t.words := by
    rw [hx.words]
    exact Form.words_pos _ _
  have hap := apart_of_inside ho h hx hx.inside
  have hmap := mapped_object ho h hx
  have hrc : ∀ a, (m.copy s.start t.start t.words).read a =
      if t.start ≤ a ∧ a < t.start + t.words then m.read (s.start + (a - t.start)) else m.read a :=
    fun a ↦ Memory.read_copy a (fun i hi ↦ mapped_next ho h hx hi) (by omega)
  have hmc : (m.copy s.start t.start t.words).Mapped s.start := by
    simp only [Memory.Mapped, Memory.endAddr_copy]
    exact hmap
  have hr : ∀ a, ((m.copy s.start t.start t.words).redirect s.start t.start).read a =
      if s.start = a then (Header.forward (Word.ofAddr t.start)).word else
        if t.start ≤ a ∧ a < t.start + t.words then m.read (s.start + (a - t.start))
        else m.read a := by
    intro a
    rw [Memory.redirect, Memory.writeHeader, Memory.read_write, hrc]
    simp only [hmc, and_true]
  have hrt : ∀ i, i < t.words →
      ((m.copy s.start t.start t.words).redirect s.start t.start).read (t.start + i) =
        m.read (s.start + i) := by
    intro i hi
    rw [hr, if_neg (by omega), if_pos (by omega)]
    congr 1
    omega
  refine ⟨?_, ?_, ?_, fun part hp hown ↦ ?_, fun i hi hi' ↦ ?_, fun a ha hn ↦ ?_⟩
  · rw [Memory.redirect, Memory.writeHeader, Memory.endAddr_write, Memory.endAddr_copy]
  · rw [hr, if_pos rfl]
  · apply (hrt 0 hwp).trans
    rw [hsh]
    exact Memory.read_of_form? (h.form?_waiting ho hx.object hx.inside hx.waiting)
  · rw [hsh] at hp hown ⊢
    have h₁ := (Form.index_lt_used hp hown).2
    have hu := f.used_le_words o.pass.padding
    rw [hrt _ (by rw [hx.words, hsh]; omega), Form.cell_eq_of_own hown]
  · rw [hsh] at hi
    have hus := f.used_pos
    rw [hrt i hi', h.read_inside ho hx.inside (by omega) (by omega)]
    exact ho.wellFormed.blank s f hx.object i hi (by omega)
  · rw [hr, if_neg (Ne.symm ha), if_neg]
    rintro ⟨h₁, h₂⟩
    exact hn (a - t.start) (by omega) (by omega)

-- Copying an object together with the units of its block.
private theorem copied_inlined (hf : f.tail = .outOfLine ∧ o.pass.compact = true) :
    o.Copied m ((((m.copy s.start t.start (1 + f.type.fields)).copy
      (Word.toAddr (m.read (s.start + (1 + f.type.fields))) + 1)
      (t.start + (1 + f.type.fields)) f.size).writeHeader t.start
        (.pack f.tag f.size .inline)).redirect s.start t.start) s t f := by
  have hsh : o.pass.shape f = { f with tail := .inline } := by rw [Evacuation.shape, if_pos hf]
  have hus : 1 + f.type.fields + f.size ≤ t.words := by
    have := (o.pass.shape f).used_le_words o.pass.padding
    rw [← hx.words, hsh] at this
    exact this
  have hul : 1 + f.type.fields < s.words := by
    have := ho.wellFormed.used_le hx.object
    simp only [Form.used, hf.1] at this
    omega
  obtain ⟨b, k, hb, hkb, hki, hkz, hl, hbi, hc⟩ := ho.block hx.object hf.1
  have hbin := hbi.mpr hx.inside
  have hbw : 1 + f.size ≤ b.words := by
    have := ho.wellFormed.used_le hb
    simp only [Form.used, hki, hkz] at this
    omega
  have hlink : m.read (s.start + (1 + f.type.fields)) = Word.ofAddr b.start := by
    rw [h.read_inside ho hx.inside hul (by omega), ← hl]
    simp only [Form.cell]
    congr 1
    omega
  have hap := apart_of_inside ho h hx hx.inside
  have hapb := apart_of_inside ho h hx hbin
  have hmap := mapped_object ho h hx
  rw [hlink, ho.toAddr_ofAddr (.of_mem hb.mem)]
  have hr := fun header ↦ read_inlined header hmap
    (fun i (hi : i < 1 + f.type.fields + f.size) ↦ mapped_next ho h hx (by omega)) (by omega)
    (show s.start + (1 + f.type.fields) ≤ t.start ∨ _ by omega)
    (show b.start + 1 + f.size ≤ t.start ∨ _ by omega)
  refine ⟨?_, ?_, ?_, fun part hp hown ↦ ?_, fun i hi hi' ↦ ?_, fun a ha hn ↦ ?_⟩
  · simp only [Memory.redirect, Memory.writeHeader, Memory.endAddr_write, Memory.endAddr_copy]
  · rw [hr, if_pos rfl]
  · rw [hr, if_neg (by omega), if_pos rfl, hsh]
    rfl
  · rw [hsh] at hp hown ⊢
    obtain ⟨h₀, h₁⟩ := Form.index_lt_used hp hown
    simp only [Form.used] at h₁
    rw [hr, if_neg (by omega), if_neg (by omega)]
    have hindex : Form.index { f with tail := .inline } part = f.index part := by cases part <;> rfl
    rw [hindex] at h₀ h₁ ⊢
    by_cases hown' : f.Own part
    · -- Fields stay at their places behind the header.
      have hi : f.index part < 1 + f.type.fields := by
        cases part with
        | prim j =>
          have hj : j < f.type.prims := hp
          simp only [Form.index, TypeInfo.fields]
          omega
        | ptr j =>
          have hj : j < f.type.ptrs := hp
          simp only [Form.index, TypeInfo.fields]
          omega
        | link => cases hp
        | unit j =>
          have hinline := hown' j rfl
          rw [hf.1] at hinline
          cases hinline
      rw [if_neg (by omega), if_pos (by omega), Form.cell_eq_of_own hown']
      congr 1
      omega
    · -- Units come from the block, and follow the fields.
      obtain ⟨j, rfl, -⟩ := Form.exists_of_not_own hown'
      have hj : j < f.size := hp
      rw [if_pos (by simp only [Form.index]; omega), h.cell_inside ho hx.object hx.inside, hc]
      congr 1
      simp only [Form.index, Form.cell, Form.unitsAt, hki, hb.type_of_isBlock hkb, TypeInfo.fields,
        TypeInfo.tailBlock]
      omega
  · rw [hsh] at hi
    simp only [Form.used] at hi
    rw [hr, if_neg (by omega), if_neg (by omega), if_neg (by omega), if_neg (by omega)]
    exact vacant_next h hx hi'
  · have hnr : ¬ (t.start ≤ a ∧ a < t.start + t.words) :=
      fun h' ↦ hn (a - t.start) (by omega) (by omega)
    rw [hr, if_neg (Ne.symm ha), if_neg (by omega), if_neg (by omega), if_neg (by omega)]

/-- What `Evacuation.moved` does to the memory. -/
theorem Next.copied : o.Copied m (o.pass.moved f s.start t.start m) s t f := by
  by_cases hf : f.tail = .outOfLine ∧ o.pass.compact = true
  · have := copied_inlined ho h hx hf
    simpa only [Evacuation.moved, if_pos hf] using this
  · have := copied_whole ho h hx hf
    rw [hx.words] at this
    simpa only [Evacuation.moved, if_neg hf] using this

end Copied

/-! ### Later states -/

/-- If there is an indirection at `a`, it does not lead into the source at once. -/
def Aimed (o : Origin) (m : Memory) (a : Nat) : Prop :=
  ∀ x, m.hop? a = some x → o.pass.source.contains x = false

/-- A later state: there may be more copies, and what is changed outside the source is clean. -/
structure Later (o : Origin) (cs : Copies) (m : Memory) (cs' : Copies) (m' : Memory) : Prop where
  copies : cs <+: cs'
  word : ∀ q p, o.Comes cs q p → m'.read p = m.read p ∨ o.Clean (m'.read p)
  husk : ∀ u ∈ o.outside, o.memory.hop? u.start ≠ none →
    m'.read u.start = m.read u.start ∨ o.Aimed m' u.start

/-- A state is as late as itself. -/
theorem Later.refl (o : Origin) (cs : Copies) (m : Memory) : o.Later cs m cs m :=
  ⟨List.prefix_refl cs, fun _ _ _ ↦ .inl rfl, fun _ _ _ ↦ .inl rfl⟩

/-- What is later than a later state is later. -/
theorem Later.trans (h : o.Later cs m cs' m') (h' : o.Later cs' m' cs'' m'') :
    o.Later cs m cs'' m'' := by
  refine ⟨h.copies.trans h'.copies, fun q p hc ↦ ?_, fun u hu hh ↦ ?_⟩
  · rcases h'.word q p (hc.mono h.copies.subset) with he | hcl
    · rcases h.word q p hc with he' | hcl
      · exact .inl (he.trans he')
      · exact .inr (he ▸ hcl)
    · exact .inr hcl
  · rcases h'.husk u hu hh with he | ha
    · rcases h.husk u hu hh with he' | ha
      · exact .inl (he.trans he')
      · exact .inr fun x hx ↦ ha x (by rw [← Memory.hop?_congr he, hx])
    · exact .inr ha

/-- A word that is clean stays so. -/
theorem Later.clean (h : o.Later cs m cs' m') (hc : o.Comes cs q p) (hp : o.Clean (m.read p)) :
    o.Clean (m'.read p) := by
  rcases h.word q p hc with he | hcl
  · rwa [he]
  · exact hcl

/-- An indirection that leads elsewhere goes on to do so. -/
theorem Later.aimed (h : o.Later cs m cs' m') (hu : u ∈ o.outside)
    (hh : o.memory.hop? u.start ≠ none) (hp : o.Aimed m u.start) : o.Aimed m' u.start := by
  rcases h.husk u hu hh with he | ha
  · exact fun x hx ↦ hp x (by rw [← Memory.hop?_congr he, hx])
  · exact ha

/-- What slot `q` of the origin is updated to: null stays null, and a reference becomes one to where
its object is now, outside the source. -/
def Final (o : Origin) (cs : Copies) (q : Nat) (w : Word) : Prop :=
  o.memory.read q = Word.null ∧ w = Word.null ∨
  ∃ b s f, o.memory.read q = Word.ofAddr b ∧ IsObject o.objects b ∧ o.Object s f ∧
    o.memory.Leads b s.start ∧ w = Word.ofAddr (cs.current s.start) ∧
    o.pass.source.contains (cs.current s.start) = false

/-- A word that comes from the origin was updated or is as it was. -/
def Updates (o : Origin) (cs : Copies) (m : Memory) (cs' : Copies) (m' : Memory) : Prop :=
  ∀ q p, o.Comes cs q p → m'.read p = m.read p ∨ o.Final cs' q (m'.read p)

/-- Nothing is updated from a state to itself. -/
theorem Updates.refl (o : Origin) (cs : Copies) (m : Memory) : o.Updates cs m cs m :=
  fun _ _ _ ↦ .inl rfl

section Final

variable (ho : o.Sound) {w : Word}
include ho

/-- An object that was moved stays where it is. -/
theorem Final.later (hf : o.Final cs q w) (h' : o.Holds cs' m' target') (hcs : cs <+: cs') :
    o.Final cs' q w := by
  obtain ⟨ds, rfl⟩ := hcs
  refine hf.imp_right ?_
  rintro ⟨b, s, f, hb, hob, hs, hl, hw, hn⟩
  have hcur := h'.plan.current_append ho hn
  exact ⟨b, s, f, hb, hob, hs, hl, by rw [hcur, hw], by rw [hcur, hn]⟩

/-- What a slot is updated to refers to direct objects outside the source. -/
theorem Final.firm (hf : o.Final cs q w) (h : o.Holds cs m target) {x : Nat}
    (hx : Word.toRef? w = some x) : o.pass.source.contains x = false ∧ m.hop? x = none := by
  rcases hf with ⟨-, rfl⟩ | ⟨b, s, f, -, -, hs, -, rfl, hn⟩
  · cases hx
  · obtain ⟨t, g, ht, hcur⟩ := h.plan.stands ho hs hn
    rw [← hcur] at hx hn
    rw [(h.mapped_stands ho ht).toRef?_ofAddr, Option.some.injEq] at hx
    subst hx
    exact ⟨hn, Memory.hop?_of_form? (h.form? ht)⟩

/-- What a slot is updated to does not lead into the source. -/
theorem Final.clean (hf : o.Final cs q w) (h : o.Holds cs m target) : o.Clean w :=
  fun _ hx ↦ (hf.firm ho h hx).1

/-- Updates that follow each other are updates. -/
theorem Updates.trans (h : o.Updates cs m cs' m') (h' : o.Updates cs' m' cs'' m'')
    (hh : o.Holds cs'' m'' target') (hcs : cs <+: cs') (hcs' : cs' <+: cs'') :
    o.Updates cs m cs'' m'' := by
  intro q p hc
  rcases h' q p (hc.mono hcs.subset) with he | hf
  · rcases h q p hc with he' | hf
    · exact .inl (he.trans he')
    · exact .inr (he ▸ hf.later ho hh hcs')
  · exact .inr hf

/-- A slot that was updated stays so. -/
theorem Updates.final (h : o.Updates cs m cs' m') (hh : o.Holds cs' m' target')
    (hcs : cs <+: cs') (hc : o.Comes cs q p) (hf : o.Final cs q (m.read p)) :
    o.Final cs' q (m'.read p) := by
  rcases h q p hc with he | hf'
  · exact he ▸ hf.later ho hh hcs
  · exact hf'

end Final

/-- A later state, which has counted what was copied meanwhile. -/
structure Advance (o : Origin) (cs : Copies) (st : CopyState) (cs' : Copies) (st' : CopyState) :
    Prop extends Later o cs st.memory cs' st'.memory where
  objects : st'.tally.objects + cs.length = st.tally.objects + cs'.length
  words : st'.tally.words + st.target.cursor = st.tally.words + st'.target.cursor

/-- No step is an advance. -/
theorem Advance.refl (o : Origin) (cs : Copies) (st : CopyState) : o.Advance cs st cs st :=
  ⟨.refl o cs st.memory, rfl, rfl⟩

/-- Advances that follow each other are an advance. -/
theorem Advance.trans {st st' st'' : CopyState} (h : o.Advance cs st cs' st')
    (h' : o.Advance cs' st' cs'' st'') : o.Advance cs st cs'' st'' := by
  refine ⟨h.toLater.trans h'.toLater, ?_, ?_⟩
  · have := h.objects
    have := h'.objects
    omega
  · have := h.words
    have := h'.words
    omega

/-- A pass comes across an object: it takes note of it if it lies in the source. -/
def meet (o : Origin) (met : List Nat) (d : Nat) : List Nat :=
  if o.pass.source.contains d then encounter met d else met

/-- The copies `cs'` are `cs` and, in order, those of the objects among `ds` that have none
there. -/
def Meets (o : Origin) (cs : Copies) (ds : List Nat) (cs' : Copies) : Prop :=
  cs'.sources = ds.foldl o.meet cs.sources

/-- A pass that comes across nothing makes no copies. -/
theorem Meets.refl (o : Origin) (cs : Copies) : o.Meets cs [] cs := rfl

/-- Copies made in two stretches are those for what both stretches come across. -/
theorem Meets.trans {ds ds' : List Nat} (h : o.Meets cs ds cs') (h' : o.Meets cs' ds' cs'') :
    o.Meets cs (ds ++ ds') cs'' := by
  rw [Meets, List.foldl_append, ← h]
  exact h'

/-- A pass that comes across objects of the source only takes note of all of them. -/
theorem foldl_meet_eq {met ds : List Nat} (h : ∀ d ∈ ds, o.pass.source.contains d = true) :
    ds.foldl o.meet met = ds.foldl encounter met := by
  apply List.foldl_ext
  intro met d hd
  rw [meet, if_pos (h d hd)]

/-- The pass has failed: the target has no room for the copy of an object that is due and has none
yet. -/
def Stuck (o : Origin) (e : Fault) (s : CopyState) : Prop :=
  ∃ cs d f, o.Holds cs s.memory s.target ∧ o.Object d f ∧ d ∈ o.inside ∧ o.Due d.start ∧
    (∀ c ∈ cs, c.1 ≠ d) ∧
    s.target.capacity < s.target.cursor + (o.pass.shape f).words o.pass.padding ∧
    e = .fatal (.exhausted ((o.pass.shape f).words o.pass.padding * wordBytes) s.target.freeBytes)

/-- Something holds of a state of the pass later than this one with these copies. -/
def Reached (o : Origin) (cs : Copies) (st : CopyState) (good : Copies → CopyState → Prop)
    (s : CopyState) : Prop :=
  ∃ cs', o.Holds cs' s.memory s.target ∧ o.Advance cs st cs' s ∧ good cs' s

/-- What is reached from a later state is reached from the one before it. -/
theorem Reached.later {good good' : Copies → CopyState → Prop} {st st' s : CopyState}
    (h : o.Reached cs' st' good s) (hl : o.Advance cs st cs' st')
    (hg : ∀ cs'', o.Holds cs'' s.memory s.target → o.Advance cs' st' cs'' s →
      good cs'' s → good' cs'' s) :
    o.Reached cs st good' s := by
  obtain ⟨cs'', hh, hl', hgood⟩ := h
  exact ⟨cs'', hh, hl.trans hl', hg cs'' hh hl' hgood⟩

-- An object that is not in the source now has no copy made, if it has not got one already.
private theorem meets_of_not_contains (hn : o.pass.source.contains (cs.current d.start) = false) :
    o.Meets cs [d.start] cs := by
  rw [Meets, List.foldl_cons, List.foldl_nil, meet]
  rcases cs.current_cases d.start with ⟨s, t, hc, he, -⟩ | ⟨-, he⟩
  · have hm : d.start ∈ cs.sources := List.mem_map.mpr ⟨_, hc, he⟩
    rw [encounter, if_pos hm, ite_self]
  · rw [he] at hn
    rw [hn, if_neg Bool.false_ne_true]

private theorem meets_append (hd : o.pass.source.contains d.start = true)
    (hw : ∀ c ∈ cs, c.1.start ≠ d.start) : o.Meets cs [d.start] (cs ++ [(d, t)]) := by
  have hn : d.start ∉ cs.sources := by
    intro hm
    obtain ⟨c, hc, he⟩ := List.mem_map.mp hm
    exact hw c hc he
  rw [Meets, List.foldl_cons, List.foldl_nil, meet, if_pos hd, encounter, if_neg hn]
  simp only [Copies.sources, List.map_append, List.map_singleton]

section Steps

variable {st : CopyState} (ho : o.Sound) (h : o.Holds cs st.memory st.target)
include ho h

/-- Evacuation gives the place where the object is from then on, outside the source, and no word
that comes from the origin is changed. -/
theorem ends_evacuate_same (hd : o.Object d f) (hdue : o.Due d.start)
    (hl : st.memory.Leads a (cs.current d.start)) :
    Ends (o.pass.evacuate a) st
      (fun r ↦ o.Reached cs st fun cs' s ↦
        (r = cs'.current d.start ∧ o.pass.source.contains r = false ∧ o.Meets cs [d.start] cs') ∧
        ∀ q p, o.Comes cs q p → s.memory.read p = st.memory.read p)
      o.Stuck := by
  -- Either the object is where it stays, or it was not copied yet and is copied now.
  cases hn : o.pass.source.contains (cs.current d.start) with
  | false =>
    exact (ends_iff_of_eq_ok (Evacuation.evacuate_of_leads hl hn)).mpr
      ⟨cs, h, .refl o cs st, ⟨rfl, hn, meets_of_not_contains hn⟩, fun _ _ _ ↦ rfl⟩
  | true =>
    obtain ⟨hi, hc, hw⟩ := h.plan.waiting ho hd hn
    have hf := h.form?_waiting ho hd hi hw
    unfold Ends Evacuation.evacuate
    simp only [hl.resolve]
    rw [if_pos hn, hc, Memory.tagBits_of_form? hf, Memory.sizeBits_of_form? hf,
      Memory.tailBits_of_form? hf, Evacuation.copyObject_eq (Memory.lookup_of_form? hf)]
    cases hb : st.target.bump ((o.pass.shape f).words o.pass.padding) with
    | none =>
      exact ⟨cs, d, f, h, hd, hi, hdue, hw, Region.bump_eq_none_iff.mp hb, rfl⟩
    | some c =>
      obtain ⟨copy, target'⟩ := c
      obtain ⟨-, ha, hs, hk, hu⟩ := Region.bump_eq_some_iff.mp hb
      have hx : o.Next cs st.target target' d
          ⟨copy, (o.pass.shape f).words o.pass.padding⟩ f :=
        ⟨hd, hi, hdue, hw, ha, rfl, hs, hk, hu⟩
      have hm := hx.copied ho h
      have hcur : (cs ++ [(d, _)]).current d.start = copy :=
        (hx.plan h).current_of_mem ho (List.mem_append_right _ (List.mem_singleton_self _))
      have hst : o.Stands (cs ++ [(d, _)]) d
          ⟨copy, (o.pass.shape f).words o.pass.padding⟩ f _ :=
        .copied (List.mem_append_right _ (List.mem_singleton_self _)) hd
      have hsame : ∀ q p, o.Comes cs q p →
          (o.pass.moved f d.start copy st.memory).read p = st.memory.read p := by
        intro q p hc
        obtain ⟨s', t', f', g', i, hs, hi', rfl⟩ := hc.exists_stands ho h
        exact hm.read_stands ho h hx hs hi'
      refine ⟨_, h.copy ho hx hm, ⟨⟨List.prefix_append _ _, fun q p hc ↦ .inl (hsame q p hc),
        fun u hu _ ↦ .inl (hm.read_outside ho h hx hu)⟩, ?_, ?_⟩, ⟨hcur.symm, ?_, meets_append ?_
          fun c hc he ↦ ?_⟩, hsame⟩
      · show st.tally.objects + 1 + cs.length = _
        rw [List.length_append, List.length_singleton]
        omega
      · show st.tally.words + _ + _ = _
        simp only [hu]
        omega
      · exact hst.not_contains ho (hx.plan h) (hst.words_pos ho (hx.plan h))
      · exact (ho.contains_iff hd.mem).mpr hi
      · exact hw c hc (ho.wellFormed.eq_of_start
          (mem_objects.mpr (.inl (h.plan.object c hc).1)) hd.mem he)

/-- Evacuation gives the place where the object is from then on, outside the source. -/
theorem ends_evacuate (hd : o.Object d f) (hdue : o.Due d.start)
    (hl : st.memory.Leads a (cs.current d.start)) :
    Ends (o.pass.evacuate a) st
      (fun r ↦ o.Reached cs st fun cs' _ ↦
        r = cs'.current d.start ∧ o.pass.source.contains r = false ∧ o.Meets cs [d.start] cs')
      o.Stuck :=
  (ends_evacuate_same ho h hd hdue hl).imp fun _ _ hr ↦
    hr.later (.refl o cs st) fun _ _ _ hg ↦ hg.1

/-- A slot that was updated is final, and what it refers to was met. -/
theorem ends_updateSlot_final (hc : o.Comes cs q p) (hq : o.DueSlot q) :
    Ends (o.pass.updateSlot p) st
      (fun _ ↦ o.Reached cs st fun cs' s ↦ (o.Final cs' q (s.memory.read p) ∧
        o.Updates cs st.memory cs' s.memory) ∧ o.Meets cs (o.memory.denoted? q).toList cs')
      o.Stuck := by
  have hload : CopyM.load p st = .ok (st.memory.read p) st := rfl
  rw [Evacuation.updateSlot, ends_bind_iff, ends_iff_of_eq_ok hload]
  -- What the slot holds now is null just if it was so at the origin.
  rcases h.carries_slot ho hq.1 (h.word q p hc) with
    ⟨hz, hn⟩ | ⟨b, x, s, f, hb, hob, hs, hl, hr, hm, hx⟩
  · rw [hn]
    have hden : o.memory.denoted? q = none := by
      rw [Memory.denoted?, hz]
      rfl
    refine ends_pure_iff.mpr ⟨cs, h, .refl o cs st, ⟨.inl ⟨hz, hn⟩, .refl o cs st.memory⟩, ?_⟩
    rw [hden]
    exact .refl o cs
  · rw [hr, hm.toRef?_ofAddr]
    have hdue : o.Due s.start :=
      hq.2 b s.start (by rw [hb, ho.wellFormed.toRef?_ofAddr hob]) hl
    apply (ends_evacuate_same ho h hs hdue hx).bind
    rintro r st' ⟨cs', h', hlat, ⟨hcur, hn, hmeets⟩, hsame⟩
    subst hcur
    have hden : o.memory.denoted? q = some s.start := by
      rw [Memory.denoted?, hb, ho.wellFormed.toRef?_ofAddr hob, Option.map_some, hl.resolve]
    have hc' := hc.mono hlat.copies.subset
    have hrp : (st'.memory.writeRef p (cs'.current s.start)).read p =
        Word.ofAddr (cs'.current s.start) :=
      Memory.read_write_self _ (hc'.mapped ho h')
    have hfin : o.Final cs' q ((st'.memory.writeRef p (cs'.current s.start)).read p) := by
      rw [hrp]
      exact .inr ⟨b, s, f, hb, hob, hs, hl, rfl, hn⟩
    have hw := h'.write_slot ho hc' hq.1 hb hob hs hl hn
    refine ⟨cs', hw, hlat.trans ⟨⟨List.prefix_refl _, fun q' p' _ ↦ ?_, fun u hu hh ↦ .inl ?_⟩,
      rfl, rfl⟩, ⟨hfin, fun q' p' hcp ↦ ?_⟩, ?_⟩
    · by_cases he : p = p'
      · subst he
        exact .inr (hfin.clean ho hw)
      · exact .inl (Memory.read_write_of_ne _ he)
    · exact Memory.read_write_of_ne _ (hc'.ne_outside ho h' hu hh)
    · by_cases he : p = p'
      · subst he
        obtain rfl := hc.unique ho h.plan hcp
        exact .inr hfin
      · exact .inl ((Memory.read_write_of_ne _ he).trans (hsame q' p' hcp))
    · rw [hden]
      exact hmeets

/-- A slot that was updated is clean, and what it refers to was met. -/
theorem ends_updateSlot (hc : o.Comes cs q p) (hq : o.DueSlot q) :
    Ends (o.pass.updateSlot p) st
      (fun _ ↦ o.Reached cs st fun cs' s ↦ o.Clean (s.memory.read p) ∧
        o.Meets cs (o.memory.denoted? q).toList cs') o.Stuck :=
  (ends_updateSlot_final ho h hc hq).imp fun _ _ hr ↦
    hr.later (.refl o cs st) fun _ h' _ hg ↦ ⟨hg.1.1.clean ho h', hg.2⟩

end Steps

/-- Moving the references of a root stack one after the other gives the places where their objects
are in the end, since an object that was moved stays where it is. -/
theorem ends_markM {σ : Type} {roots : RootStack Nat} {step : Nat → EStateM Fault σ Nat}
    (inv : List Nat → Copies → σ → Prop) {bad : Fault → σ → Prop} {st : σ} (ho : o.Sound)
    (hplan : ∀ done cs st, inv done cs st → ∃ stop, o.Plan cs stop) (h : inv [] cs st)
    (hstep : ∀ done cs st a, a ∈ roots.toList → inv done cs st → Ends (step a) st
      (fun r st' ↦ ∃ cs', inv (done ++ [a]) cs' st' ∧ cs <+: cs' ∧
        r = cs'.current (o.memory.resolve a) ∧ o.pass.source.contains r = false) bad) :
    Ends (roots.markM step) st
      (fun r st' ↦ ∃ cs', inv roots.toList cs' st' ∧
        r.toList = roots.toList.map (fun a ↦ cs'.current (o.memory.resolve a)) ∧
        ∀ a ∈ roots.toList, o.pass.source.contains (cs'.current (o.memory.resolve a)) = false)
      bad := by
  rw [RootStack.markM]
  refine (Ends.mapM (fun done rs st' ↦ ∃ cs', inv done cs' st' ∧
    rs = done.map (fun a ↦ cs'.current (o.memory.resolve a)) ∧
    ∀ a ∈ done, o.pass.source.contains (cs'.current (o.memory.resolve a)) = false)
    ⟨cs, h, rfl, by simp⟩ ?_).bind ?_
  · rintro done rs a rest st' hx ⟨cs', hi, hrs, hn⟩
    have ha : a ∈ roots.toList := by
      rw [RootStack.toList, hx]
      simp
    apply (hstep done cs' st' a ha hi).imp
    rintro r st'' ⟨cs'', hi', ⟨ds, hds⟩, hr, hnr⟩
    subst hds
    obtain ⟨stop, hp⟩ := hplan _ _ _ hi'
    have hcur : ∀ b ∈ done, (cs' ++ ds).current (o.memory.resolve b) =
        cs'.current (o.memory.resolve b) := fun b hb ↦ hp.current_append ho (hn b hb)
    refine ⟨_, hi', ?_, fun b hb ↦ ?_⟩
    · rw [hrs, List.map_append, List.map_singleton, hr]
      congr 1
      exact (List.map_congr_left hcur).symm
    · rcases List.mem_append.mp hb with hb | hb
      · rw [hcur b hb]
        exact hn b hb
      · obtain rfl := List.mem_singleton.mp hb
        rw [← hr]
        exact hnr
  · rintro rs st' ⟨cs', hi, hrs, hn⟩
    refine ends_pure_iff.mpr ⟨cs', hi, ?_, hn⟩
    rw [RootStack.toList]
    exact hrs

end Origin

end Tenure
