import Lasso.Graph.Basic

/-! # Printed expressions

An expression is printed as a tree of conjunctions and negations over named variables.
-/

namespace Lasso

set_option autoImplicit false

namespace Graph

def plainName (v : Nat) : String := "v" ++ toString v

/-- The text of a node, where a number without a name is printed as a plain variable. -/
def renderNode (g : Graph) (names : Nat → Option String) (v : Nat) : String :=
  match g.operands? v with
  | none => (names v).getD (plainName v)
  | some ⟨(a, b), _⟩ =>
    "(" ++ side a (g.renderNode names a.var) ++ " ∧ " ++ side b (g.renderNode names b.var) ++ ")"
termination_by v
decreasing_by all_goals simp_all
where
  /-- An operand, given the text of its node. -/
  side (l : Lit) (text : String) : String :=
    if l = truth then "⊤" else if l = falsity then "⊥"
    else if l.negated then "¬" ++ text else text

def render (g : Graph) (names : Nat → Option String) (l : Lit) : String :=
  renderNode.side l (g.renderNode names l.var)

end Graph

end Lasso
