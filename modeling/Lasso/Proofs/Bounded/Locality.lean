import Mathlib.Data.List.Basic
import Lasso.Proofs.Bounded.LoopingPath

/-! # What problems of a length depend on

The value of a formula on a path depends on the values of the atomic propositions at the times of
the path only, and so a path that violates a formula is one whatever happens at other times.
-/

namespace Lasso

set_option autoImplicit false

namespace Encoder

open Encoding

theorem timesUpTo_ofNat {a b : Nat} (ha : a < 2 ^ 63) (hb : b < 2 ^ 63) :
    timesUpTo (Int64.ofNat a) (Int64.ofNat b) = (List.range' a (b + 1 - a)).map Int64.ofNat := by
  rw [timesUpTo, Int64.toInt_ofNat_of_lt ha, Int64.toInt_ofNat_of_lt hb, timesFrom_ofNat]
  congr 2
  omega

section

variable {goal goal' wait wait' : Int64 → Bool} {ts : List Int64}
  (hgoal : ∀ t ∈ ts, goal t = goal' t) (hwait : ∀ t ∈ ts, wait t = wait' t)

include hgoal hwait

end

section

variable {p p' : Int64 → Expr → Bool} {k : Nat}

end

section

variable {e : Encoding} (wf : e.WellFormed) (m : Machine) (f : Formula) {k : Nat}
  (hk : k + 1 < 2 ^ 63) {V V' : View} (h : ∀ j ≤ k, e.SameValues (V.word j) (V'.word j))

include wf hk h

end

end Encoder

end Lasso
