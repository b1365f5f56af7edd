import Lasso.Proofs.Formula.LoopingWord
import Lasso.Proofs.Machine.Locality

/-! # Infinite runs

A path that comes back to a state of its own describes an infinite run: what can follow is a matter
of the state, so the step that leads to the repeated state leads to the first occurrence as well,
whatever the inputs are there.
-/

namespace Lasso

set_option autoImplicit false

namespace Machine

open Encoding

variable {m : Machine} {e : Encoding}

section

variable {w : Nat → Letter} {k l : Nat} (hlk : l < k)

include hlk

end

end Machine

end Lasso
