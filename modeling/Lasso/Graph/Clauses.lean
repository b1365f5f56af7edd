import Lasso.Graph.Reach

/-! # Clauses

The clausal form of some expressions pins the constant, defines every gate beneath the
expressions, and asserts each expression as a clause of its own.  Variables keep the numbers they
have in the graph.
-/

namespace Lasso

set_option autoImplicit false

abbrev Clause := List Lit

namespace Clause

def eval (ρ : Assignment) (c : Clause) : Bool := c.any (·.eval ρ)

def maxVar (c : Clause) : Nat := c.foldr (fun l n => max l.var n) 0

end Clause

abbrev Cnf := List Clause

namespace Cnf

def eval (ρ : Assignment) (f : Cnf) : Bool := f.all (·.eval ρ)

def maxVar (f : Cnf) : Nat := f.foldr (fun c n => max c.maxVar n) 0

end Cnf

namespace Graph

def gateClauses (v : Nat) (a b : Lit) : Cnf :=
  let g := Lit.pos v
  [[g.not, a], [g.not, b], [g, a.not, b.not]]

def definitions (g : Graph) (roots : List Lit) : Cnf :=
  [truth] :: (g.gatesBelow roots).flatMap fun (v, a, b) => gateClauses v a b

/-- The clauses that assert some expressions, given the literals asserted before.  An expression
that is asserted already needs no clause, and one whose negation is gives the empty clause. -/
def assertions : List Lit → List Lit → Cnf
  | _, [] => []
  | units, l :: ls =>
    if l ∈ units then assertions units ls
    else if l.not ∈ units then [] :: assertions units ls
    else [l] :: assertions (l :: units) ls

def clauses (g : Graph) (roots : List Lit) : Cnf :=
  g.definitions roots ++ assertions [truth] roots

end Graph

/-- A clausal problem in the exchange format: the largest variable in use and the clauses. -/
structure Dimacs where
  maxVar : Nat
  clauses : Cnf

namespace Dimacs

def renderClause (c : Clause) : String :=
  c.foldl (fun text l => text ++ toString l.signed ++ " ") "" ++ "0\n"

def render (d : Dimacs) : String :=
  d.clauses.foldl (fun text c => text ++ renderClause c)
    ("p cnf " ++ toString d.maxVar ++ " " ++ toString d.clauses.length ++ "\n")

end Dimacs

namespace Graph

def dimacs (g : Graph) (roots : List Lit) : Dimacs :=
  let clauses := g.clauses roots
  ⟨max clauses.maxVar (Clause.maxVar roots), clauses⟩

end Graph

end Lasso
