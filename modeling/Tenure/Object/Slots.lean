import Tenure.Memory
import Tenure.TypeTable

/-!
# The slots of an object

The slots are the words of an object that may hold references: its reference fields, then the word
that refers to its block if it has one, then the units of its tail if they hold references. The
type table alone decides which they are. A visitor may overwrite the reference to the block when
it is given that slot; the units it is given next are those of the block referred to then.
-/

namespace Tenure

/-- Which slots follow the reference fields. -/
inductive TailSlots
  | none
  /-- The units behind the fields. -/
  | units (first count : Nat)
  /-- The word at `link`, and the units of the block it refers to if they hold references. -/
  | block (link count : Nat) (traced : Bool)
  deriving DecidableEq, Repr

/-- The slots of one object. -/
structure Slots where
  firstPtr : Nat
  ptrs : Nat
  tail : TailSlots
  deriving DecidableEq, Repr

/-- The slots of the object at `a`, whose header must be direct. -/
def Memory.slots (m : Memory) (table : TypeTable) (a : Nat) : Except Fault Slots := do
  let h := m.header a
  let info ← table.lookup (← h.tag)
  let behind := a + 1 + info.fields
  let traced : Bool := info.units = .refs
  let size ← h.size
  return {
    firstPtr := a + 1 + info.prims
    ptrs := info.ptrs
    tail := match ← h.tail with
      | .outOfLine => .block behind size traced
      | .inline => if traced then .units behind size else .none }

namespace Slots

/-- Give a visitor `count` neighbouring words, lowest first. -/
def visitRange {m : Type → Type} [Monad m] (visit : Nat → m Unit) (first : Nat) :
    (count : Nat) → m Unit
  | 0 => pure ()
  | count + 1 => do
    visit first
    visitRange visit (first + 1) count

/-- Give a visitor all slots in order. The reference to the block is read by `load` after the
visitor has seen its slot. -/
def visit {m : Type → Type} [Monad m] (s : Slots) (load : Nat → m Word) (use : Nat → m Unit) :
    m Unit := do
  visitRange use s.firstPtr s.ptrs
  match s.tail with
  | .none => pure ()
  | .units first count => visitRange use first count
  | .block link count traced =>
    use link
    if traced then
      match Word.toRef? (← load link) with
      | none => pure ()
      | some block => visitRange use (block + 1) count

/-- The slots in order, while the memory stays as it is. -/
def list (s : Slots) (m : Memory) : List Nat :=
  List.range' s.firstPtr s.ptrs ++
    match s.tail with
    | .none => []
    | .units first count => List.range' first count
    | .block link count traced =>
      link :: match if traced then Word.toRef? (m.read link) else Option.none with
        | Option.none => []
        | some block => List.range' (block + 1) count

/-- The references that the slots hold, in order. -/
def refs (s : Slots) (m : Memory) : List Nat :=
  (s.list m).filterMap fun slot => Word.toRef? (m.read slot)

end Slots

end Tenure
