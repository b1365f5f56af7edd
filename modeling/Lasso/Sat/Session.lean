import Lasso.Sat.Solver

/-! # Sessions

Facts gathered over several questions about one growing graph.  The assumptions of a question hold
for that question only.
-/

namespace Lasso

set_option autoImplicit false

structure Session where
  facts : List Lit

namespace Session

def empty : Session := ⟨[]⟩

instance : EmptyCollection Session := ⟨empty⟩

def add (s : Session) (ls : List Lit) : Session := ⟨s.facts ++ ls⟩

/-- Values under which the facts and some assumptions hold together, if there are any. -/
def solve [Solver] (s : Session) (g : Graph) (assumptions : List Lit) : Option Assignment :=
  g.solve (s.facts ++ assumptions)

end Session

end Lasso
