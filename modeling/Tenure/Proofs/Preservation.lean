import Tenure.Proofs.Session
import Tenure.Snapshot

/-!
# Collections keep the graph

Whatever a program has done before, a collection that does not run out of room takes the graph that
the roots reach to one that differs in the names of the nodes at most, and in tails that moved
inline if the settings ask for it. Main statement: `Reaches.heap_preserves`.
-/

namespace Tenure

namespace Heap

/-- The operation keeps the graph that the roots reach, or it ends with a fatal error. -/
def Preserves {α : Type} (op : HeapM α) (h : Heap) : Prop :=
  Ends op h (fun _ h' ↦ ∃ φ, SameGraph φ h h') (fun e _ ↦ e.IsFatal)

variable {h h' h₁ : Heap} {l l₁ : Census} {f : Form} {a tag size : Nat} {φ : Nat → Nat}

/-- A collection cycle keeps the graph. -/
theorem preserves_collect (hs : h.Sound l) : Preserves collect h :=
  (ends_collect hs).mono (fun _ _ ⟨⟨_, hc⟩, _⟩ ↦ hc.graph) fun _ _ he ↦ he.1.isFatal

/-- A major collection keeps the graph. -/
theorem preserves_majorCollection (hs : h.Sound l) : Preserves majorCollection h :=
  (ends_majorCollection hs).mono (fun _ _ ⟨⟨_, hc⟩, _⟩ ↦ hc.graph) fun _ _ he ↦ he.1.isFatal

/-- The new object is not in the graph. -/
theorem Placed.preserves (hs : h.Sound l) (hr : Ready h l h₁ l₁) (hp : Placed h₁ f a h') :
    ∃ φ, SameGraph φ h h' := by
  obtain ⟨φ, hg⟩ := hr.sameGraph
  exact ⟨_, hg.trans (hp.sameGraph (hr.sound hs))⟩

/-- An allocation with a given layout keeps the graph. -/
theorem preserves_allocateWith {tail : TailLayout} (hs : h.Sound l) :
    Preserves (allocateWith tag size tail) h :=
  (ends_allocateWith hs).mono (fun _ _ ⟨_, _, _, hr, _, hp⟩ ↦ hp.preserves hs hr)
    fun _ _ he ↦ he.1

/-- An allocation with the default layout keeps the graph. -/
theorem preserves_allocate (hs : h.Sound l) : Preserves (allocate tag size) h := by
  rw [allocate]
  exact preserves_allocateWith hs

end Heap

namespace Mutator

variable {settings : Settings} {table : TypeTable} {s : Session} {l : Census}

/-- In every heap that a program can reach, all nodes of the graph have contents that a program can
read, and collections keep the graph, those in an allocation included. -/
theorem Reaches.heap_preserves (hr : Reaches settings table s l) :
    (∀ d, s.heap.Live d → ∃ c, s.heap.memory.view s.heap.table d = some c) ∧
    Heap.Preserves Heap.minorCollection s.heap ∧
    Heap.Preserves Heap.majorCollection s.heap ∧
    (∀ tag size, Heap.Preserves (Heap.allocate tag size) s.heap) ∧
    ∀ tag size tail, Heap.Preserves (Heap.allocateWith tag size tail) s.heap := by
  have hs := hr.sound.heap
  exact ⟨fun d hd ↦ hd.view_isSome hs, Heap.preserves_collect hs,
    Heap.preserves_majorCollection hs, fun _ _ ↦ Heap.preserves_allocate hs,
    fun _ _ _ ↦ Heap.preserves_allocateWith hs⟩

/-- A run after which the first root denotes what the tail of the second one refers to. -/
theorem preserves_sample : ∃ s l, Reaches Sample.smallSettings Sample.nodeTable s l ∧
    s.heap.snapshot.nodes.size = 2 ∧ Heap.Preserves Heap.minorCollection s.heap := by
  obtain ⟨s, l, hs, hr⟩ := Sample.reaches
  refine ⟨s, l, hr, ?_, hr.heap_preserves.2.1⟩
  have hc : (Sample.session Sample.smallSettings).map (·.heap.snapshot.nodes.size) = some 2 := by
    decide +kernel
  rw [hs] at hc
  exact Option.some.inj hc

end Mutator

end Tenure
