import Lasso.Sat.Exhaustive
import Lasso.Sat.Strategy

/-! # Satisfiability

Whether some expressions of a graph can hold together, with which values, and in how many ways.
Any solver will do that gives a model where there is one and never anything else.
-/

namespace Lasso

set_option autoImplicit false

/-- A sound and complete solver: it gives a model of clauses if there is one. -/
class Solver where
  model? : Cnf → Option Assignment
  eval_of_model? : ∀ {f : Cnf} {ρ : Assignment}, model? f = some ρ → f.eval ρ = true
  eval_eq_false_of_model? : ∀ {f : Cnf}, model? f = none → ∀ ρ, f.eval ρ = false

namespace Cnf

/-- The number of steps after which the search is given up for the exhaustive one. -/
def searchBudget : Nat := 1000000000

def settle (f : Cnf) : Verdict f := (Sat.Search.search f searchBudget).getD f.exhaust

def model? (f : Cnf) : Option Assignment :=
  match f.settle with
  | .sat ρ _ => some ρ
  | .unsat _ => none

theorem eval_of_model? {f : Cnf} {ρ : Assignment} (h : f.model? = some ρ) : f.eval ρ = true := by
  unfold model? at h
  split at h
  · rename_i σ hσ _
    obtain rfl : σ = ρ := by simpa using h
    exact hσ
  · simp at h

theorem eval_eq_false_of_model? {f : Cnf} (h : f.model? = none) (ρ : Assignment) :
    f.eval ρ = false := by
  unfold model? at h
  split at h
  · simp at h
  · rename_i refuted _
    exact refuted ρ

instance : Solver := ⟨model?, eval_of_model?, eval_eq_false_of_model?⟩

def excluding (ρ : Assignment) (vars : List Nat) : Clause := vars.map fun v => ⟨v, ρ v⟩

/-- Models that differ on some variables pairwise, as their values on these, up to a limit. -/
def models [Solver] (vars : List Nat) : Nat → Cnf → List (List Bool)
  | 0, _ => []
  | limit + 1, f =>
    match Solver.model? f with
    | none => []
    | some ρ => vars.map ρ :: models vars limit (excluding ρ vars :: f)

end Cnf

namespace Graph

variable [Solver]

/-- Values of the free variables under which some expressions hold together, if there are any. -/
def solve (g : Graph) (roots : List Lit) : Option Assignment := Solver.model? (g.clauses roots)

def forced (g : Graph) (roots : List Lit) (l : Lit) : Option Bool :=
  if (g.solve (roots ++ [l.not])).isNone then some true
  else if (g.solve (roots ++ [l])).isNone then some false
  else none

def equivalent (a b : Lit) : StateM Graph Bool := do
  if a = b then return true
  let differ ← xor a b
  return ((← get).solve [differ]).isNone

def modelsOn (g : Graph) (roots : List Lit) (vars : List Nat) (limit : Nat) : List (List Bool) :=
  Cnf.models vars limit (g.clauses roots)

end Graph

end Lasso
