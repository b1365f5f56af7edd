/-! # Literals

A literal is a numbered variable or its negation.
-/

namespace Lasso

set_option autoImplicit false

structure Lit where
  var : Nat
  negated : Bool
  deriving DecidableEq, Hashable, Repr, Inhabited

abbrev Assignment := Nat → Bool

namespace Lit

def pos (v : Nat) : Lit := ⟨v, false⟩

def not (l : Lit) : Lit := { l with negated := !l.negated }

def flipIf (c : Bool) (l : Lit) : Lit := { l with negated := c ^^ l.negated }

/-- Literals are ordered by variable, where a variable comes before its negation. -/
def code (l : Lit) : Nat := 2 * l.var + l.negated.toNat

def signed (l : Lit) : Int := if l.negated then -(l.var : Int) else l.var

def eval (ρ : Assignment) (l : Lit) : Bool := l.negated ^^ ρ l.var

end Lit

end Lasso
