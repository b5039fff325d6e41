import Mathlib.Data.Set.Function
import Tenure.Proofs.Soundness
import Tenure.Proofs.View

/-!
# The graph that the roots reach

The nodes of a heap are the objects that its roots reach, where an indirection counts as the object
that it leads to. Two heaps have the same graph if a renaming of the nodes takes one to the other.
Main statements: `Live.valid`, every node of a sound heap is an object that a program can name;
`Renames.live_iff`, a renaming is onto; `Renames.between` and `SameGraph.trans`.
-/

namespace Tenure.Heap

/-- The objects that the roots reach. -/
inductive Live (h : Heap) : Nat → Prop
  | root {a : Nat} : a ∈ h.roots.toList → Live h (h.memory.resolve a)
  | field {d e : Nat} {c : Contents Nat} : Live h d → h.memory.view h.table d = some c →
      e ∈ c.references → Live h e

/-- The renaming `φ` takes the graph that the roots of `h` reach to that of `h'`. -/
structure SameGraph (φ : Nat → Nat) (h h' : Heap) : Prop where
  table : h'.table = h.table
  settings : h'.settings = h.settings
  /-- The roots correspond position by position. -/
  roots : h'.roots.toList.map h'.memory.resolve = (h.roots.toList.map h.memory.resolve).map φ
  /-- Different nodes stay different. -/
  injective : ∀ d e, h.Live d → h.Live e → φ d = φ e → d = e
  /-- Each node keeps what a program can read from it. -/
  view : ∀ d, h.Live d →
    h'.memory.view h'.table (φ d) = (h.memory.view h.table d).map (·.map φ)
  tag : ∀ d, h.Live d → (h'.memory.header (φ d)).tagBits = (h.memory.header d).tagBits
  size : ∀ d, h.Live d → (h'.memory.header (φ d)).sizeBits = (h.memory.header d).sizeBits
  /-- A tail may move inline, if that is what the settings ask for. -/
  tail : ∀ d, h.Live d → (h'.memory.header (φ d)).tailBits = (h.memory.header d).tailBits ∨
    h.settings.compactTails = true ∧ (h.memory.header d).tailBits = .outOfLine ∧
      (h'.memory.header (φ d)).tailBits = .inline

/-- The renaming `φ` takes the graph that the roots of `h` reach to that of `h'`, as far as a
program can tell. -/
structure Renames (φ : Nat → Nat) (h h' : Heap) : Prop where
  table : h'.table = h.table
  /-- The roots correspond position by position. -/
  roots : h'.roots.toList.map h'.memory.resolve = (h.roots.toList.map h.memory.resolve).map φ
  /-- Different nodes stay different. -/
  injective : ∀ d e, h.Live d → h.Live e → φ d = φ e → d = e
  /-- Each node keeps what a program can read from it. -/
  view : ∀ d, h.Live d →
    h'.memory.view h'.table (φ d) = (h.memory.view h.table d).map (·.map φ)
  tag : ∀ d, h.Live d → (h'.memory.header (φ d)).tagBits = (h.memory.header d).tagBits
  size : ∀ d, h.Live d → (h'.memory.header (φ d)).sizeBits = (h.memory.header d).sizeBits

variable {h h' h'' : Heap} {l : Census} {φ ψ : Nat → Nat} {a d e : Nat}

/-- If all roots are valid, every node is an object that a program can name. -/
theorem Live.direct {padding : Bool} {os : List Span}
    (hw : h.memory.WellFormed h.table padding os)
    (hroots : ∀ a ∈ h.roots.toList, h.memory.Valid h.table os a) (hd : h.Live d) :
    ∃ s f, h.memory.Direct h.table os s f ∧ s.start = d ∧ ¬ f.IsBlock := by
  induction hd with
  | root ha =>
    obtain ⟨-, -, s, f, hf, he, hb⟩ := (hroots _ ha).denotes
    exact ⟨s, f, hf, he, hb⟩
  | field _ hc he ih =>
    obtain ⟨s, f, hf, rfl, hb⟩ := ih
    exact hw.direct_of_view hf hb hc he

/-- Every node of a sound heap is an object that a program can name. -/
theorem Live.object (hs : h.Sound l) (hd : h.Live d) :
    ∃ s f, h.Object l s f ∧ s.start = d ∧ ¬ f.IsBlock :=
  hd.direct hs.wellFormed hs.roots

/-- A live object has contents that a program can read. -/
theorem Live.view_isSome (hs : h.Sound l) (hd : h.Live d) :
    ∃ c, h.memory.view h.table d = some c := by
  obtain ⟨s, f, hf, rfl, hb⟩ := hd.object hs
  exact ⟨_, Memory.view_of_form? hf.form? hb⟩

/-- A graph is the same as itself. -/
theorem SameGraph.refl (h : Heap) : SameGraph id h h where
  table := rfl
  settings := rfl
  roots := by rw [List.map_id]
  injective := fun _ _ _ _ he ↦ he
  view := fun d _ ↦ (Contents.map_map_id _).symm
  tag := fun _ _ ↦ rfl
  size := fun _ _ ↦ rfl
  tail := fun _ _ ↦ .inl rfl

/-- A node stays one under its new name. -/
theorem Renames.live (hg : Renames φ h h') (hd : h.Live d) : h'.Live (φ d) := by
  induction hd with
  | @root a ha =>
    have hm : φ (h.memory.resolve a) ∈ h'.roots.toList.map h'.memory.resolve := by
      rw [hg.roots]
      exact List.mem_map_of_mem (List.mem_map_of_mem ha)
    obtain ⟨b, hb, he⟩ := List.mem_map.mp hm
    rw [← he]
    exact .root hb
  | @field d e c hd hc he ih =>
    refine .field ih (c := c.map φ) (by rw [hg.view d hd, hc, Option.map_some]) ?_
    rw [Contents.references_map]
    exact List.mem_map_of_mem he

/-- The nodes are those there were, under their new names. -/
theorem Renames.live_iff (hg : Renames φ h h') : h'.Live e ↔ ∃ d, h.Live d ∧ φ d = e := by
  constructor
  · intro he
    induction he with
    | @root b hb =>
      have hm : h'.memory.resolve b ∈ (h.roots.toList.map h.memory.resolve).map φ := by
        rw [← hg.roots]
        exact List.mem_map_of_mem hb
      simp only [List.mem_map, exists_exists_and_eq_and] at hm
      obtain ⟨a, ha, he⟩ := hm
      exact ⟨_, .root ha, he⟩
    | @field _ e c _ hc hm ih =>
      obtain ⟨d, hd, rfl⟩ := ih
      rw [hg.view d hd] at hc
      obtain ⟨c₀, hc₀, rfl⟩ := Option.map_eq_some_iff.mp hc
      rw [Contents.references_map] at hm
      obtain ⟨x, hx, rfl⟩ := List.mem_map.mp hm
      exact ⟨x, .field hd hc₀ hx, rfl⟩
  · rintro ⟨d, hd, rfl⟩
    exact hg.live hd

/-- A collection that keeps the graph renames its nodes. -/
theorem SameGraph.renames (hg : SameGraph φ h h') : Renames φ h h' :=
  ⟨hg.table, hg.roots, hg.injective, hg.view, hg.tag, hg.size⟩

/-- The place that a live object is taken to is live. -/
theorem SameGraph.live (hg : SameGraph φ h h') (hd : h.Live d) : h'.Live (φ d) :=
  hg.renames.live hd

/-- What is live after the collection is what the live objects were taken to. -/
theorem SameGraph.live_iff (hg : SameGraph φ h h') : h'.Live e ↔ ∃ d, h.Live d ∧ φ d = e :=
  hg.renames.live_iff

/-- Renamings one after the other make a renaming. -/
theorem Renames.trans (hg : Renames φ h h') (hg' : Renames ψ h' h'') :
    Renames (ψ ∘ φ) h h'' where
  table := hg'.table.trans hg.table
  roots := by rw [hg'.roots, hg.roots, List.map_map]
  injective := fun d e hd he h ↦ hg.injective d e hd he
    (hg'.injective _ _ (hg.live hd) (hg.live he) h)
  view := fun d hd ↦ by
    rw [Function.comp_apply, hg'.view _ (hg.live hd), hg.view d hd, Option.map_map]
    simp only [Function.comp_def, Contents.map_map]
  tag := fun d hd ↦ (hg'.tag _ (hg.live hd)).trans (hg.tag d hd)
  size := fun d hd ↦ (hg'.size _ (hg.live hd)).trans (hg.size d hd)

/-- If two renamings take one graph to two others, what takes the new names of the one to those of
the other is a renaming. -/
theorem Renames.between {χ : Nat → Nat} (hg : Renames φ h h') (hg' : Renames ψ h h'')
    (hχ : ∀ d, h.Live d → χ (φ d) = ψ d) : Renames χ h' h'' where
  table := hg'.table.trans hg.table.symm
  roots := by
    rw [hg'.roots, hg.roots, List.map_map, List.map_map, List.map_map]
    exact List.map_congr_left fun a ha ↦ (hχ _ (.root ha)).symm
  injective := by
    intro d e hd he heq
    obtain ⟨x, hx, rfl⟩ := hg.live_iff.mp hd
    obtain ⟨y, hy, rfl⟩ := hg.live_iff.mp he
    rw [hχ x hx, hχ y hy] at heq
    rw [hg'.injective x y hx hy heq]
  view := by
    intro d hd
    obtain ⟨x, hx, rfl⟩ := hg.live_iff.mp hd
    rw [hχ x hx, hg'.view x hx, hg.view x hx, Option.map_map]
    refine Option.map_congr fun c hc ↦ ?_
    rw [Function.comp_apply, Contents.map_map]
    exact Contents.map_congr fun e he ↦ (hχ e (.field hx hc he)).symm
  tag := by
    intro d hd
    obtain ⟨x, hx, rfl⟩ := hg.live_iff.mp hd
    rw [hχ x hx, hg'.tag x hx, hg.tag x hx]
  size := by
    intro d hd
    obtain ⟨x, hx, rfl⟩ := hg.live_iff.mp hd
    rw [hχ x hx, hg'.size x hx, hg.size x hx]

/-- If two renamings take one graph to two others, some renaming takes the one of these to the
other. -/
theorem Renames.exists_between (hg : Renames φ h h') (hg' : Renames ψ h h'') :
    ∃ χ, (∀ d, h.Live d → χ (φ d) = ψ d) ∧ Renames χ h' h'' := by
  have hχ : ∀ d, h.Live d → (ψ ∘ Function.invFunOn φ {d | h.Live d}) (φ d) = ψ d := by
    intro d hd
    have hinj : Set.InjOn φ {d | h.Live d} := fun x hx y hy he ↦ hg.injective x y hx hy he
    exact congrArg ψ (hinj.leftInvOn_invFunOn hd)
  exact ⟨_, hχ, hg.between hg' hχ⟩

/-- Renamings compose. -/
theorem SameGraph.trans (hg : SameGraph φ h h') (hg' : SameGraph ψ h' h'') :
    SameGraph (ψ ∘ φ) h h'' where
  __ := hg.renames.trans hg'.renames
  settings := hg'.settings.trans hg.settings
  tail := fun d hd ↦ by
    have hset := hg.settings
    simp only [Function.comp_apply]
    rcases hg.tail d hd with ht | ⟨hc, ho, hi⟩
    · rcases hg'.tail _ (hg.live hd) with ht' | ⟨hc', ho', hi'⟩
      · exact .inl (ht'.trans ht)
      · exact .inr ⟨hset ▸ hc', ht ▸ ho', hi'⟩
    · rcases hg'.tail _ (hg.live hd) with ht' | ⟨-, ho', -⟩
      · exact .inr ⟨hc, ho, ht'.trans hi⟩
      · rw [hi] at ho'
        cases ho'

/-- Counters and events play no part in the graph. -/
theorem SameGraph.of_sameStore (hg : SameGraph φ h h') (he : SameStore h' h'') :
    SameGraph φ h h'' := by
  obtain ⟨ht, hst, hm, -, -, hr⟩ := he
  exact ⟨ht.trans hg.table, hst.trans hg.settings, by rw [hr, hm, hg.roots], hg.injective,
    by rw [ht, hm]; exact hg.view, by rw [hm]; exact hg.tag, by rw [hm]; exact hg.size,
    by rw [hm]; exact hg.tail⟩

end Tenure.Heap
