import Lasso.Proofs.Bounded.Checker
import Lasso.Proofs.Bounded.Locality
import Lasso.Proofs.Machine.Run

/-! # Counterexamples replayed

A trace has the values of a path that violates a formula, and what a path says is a matter of the
values of the declared variables up to its length.  So every assignment with the values of the
trace solves the problem of the trace's length and loop, and if there is a loop, the trace describes
an infinite run that is fair.
-/

namespace Lasso

set_option autoImplicit false

namespace Trace

def word (tr : Trace) (n : Nat) : Letter := fun i => (tr.states[n]?.getD [])[i]?.getD false

/-- The variables have the values of the trace at its steps. -/
def Fits (tr : Trace) (e : Encoding) (ρ : Assignment) : Prop :=
  ∀ (i : Nat) (t : UInt64) (l : Lit), e.timeline[(i, t)]? = some l → i < tr.vars.size →
    t.toNat < tr.length → ρ l.var = tr.word t.toNat i

end Trace

namespace Encoding

end Encoding

namespace Trace

open Encoding

variable {tr : Trace} {e : Encoding} {n : Nat} {V : View} (h : tr.Records e n V)

include h

theorem Records.length_eq : tr.length = n + 1 := by
  rw [length, h.states, List.length_map, instants_eq, List.length_map, List.length_range]

end Trace

namespace Encoder

open Encoding

section

variable {m : Machine} {f : Formula} {s : Encoder} {n : Nat} {tr : Trace} {V : View}
  (wf : s.WellFormed) (h : Shows m f s n tr V) (hn : n + 1 < 2 ^ 63) (hm : m.Over s.encoding)

include wf h

include hn

include hm

end

end Encoder

end Lasso
