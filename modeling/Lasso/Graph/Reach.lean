import Std.Data.HashSet
import Lasso.Graph.Basic

/-! # Reachable nodes

The nodes beneath some expressions, each once, with a gate after its operands and the first operand
before the second.  From this order come the support of an expression, its clauses and its size.
-/

namespace Lasso

set_option autoImplicit false

/-- Numbers in order of arrival, and as a set. -/
structure Reached where
  order : Array Nat
  seen : Std.HashSet Nat

namespace Reached

def empty : Reached := ⟨#[], {}⟩

instance : EmptyCollection Reached := ⟨empty⟩

def push (r : Reached) (v : Nat) : Reached := ⟨r.order.push v, r.seen.insert v⟩

end Reached

namespace Graph

/-- Adds the nodes beneath a number that were not reached before.  The constant is left out. -/
def visit (g : Graph) (v : Nat) (r : Reached) : Reached :=
  if v = 1 ∨ r.seen.contains v then r
  else match g.operands? v with
    | none => r.push v
    | some ⟨(a, b), _⟩ => (g.visit b.var (g.visit a.var r)).push v
termination_by v
decreasing_by all_goals simp_all

def reach (g : Graph) (roots : List Lit) : List Nat :=
  (roots.foldl (fun r l => g.visit l.var r) {}).order.toList

/-- The free variables that an expression is built from, in order of first occurrence. -/
def support (g : Graph) (l : Lit) : List Lit :=
  ((g.reach [l]).filter fun v => (g.operands? v).isNone).map .pos

/-- The gates beneath some expressions with their operands, operands first. -/
def gatesBelow (g : Graph) (roots : List Lit) : List (Nat × Lit × Lit) :=
  (g.reach roots).filterMap fun v => (g.operands? v).map fun p => (v, p.val)

/-- The number of leaves of every node, unfolded as a tree. -/
def leafCounts (g : Graph) : Array Nat :=
  g.nodes.foldl (fun (counts : Array Nat) node =>
    counts.push <| match node with
      | .gate a b => counts.getD a.var 1 + counts.getD b.var 1
      | _ => 1) #[]

def leafCount (g : Graph) (l : Lit) : Nat := g.leafCounts.getD l.var 1

end Graph

end Lasso
