import Lasso.Bounded.Semantics
import Lasso.Sat.Solver

/-! # Traces

A trace gives the values of all variables at the steps of a bounded path, and the step to which its
last step loops back.
-/

namespace Lasso

set_option autoImplicit false

structure Trace where
  vars : Array Variable
  states : List (List Bool)
  loopback : Loop

namespace Trace

def length (t : Trace) : Nat := t.states.length

end Trace

namespace Graph

def evaluate (g : Graph) (ρ : Assignment) (l : Lit) : Bool :=
  l.negated ^^ (g.values ρ).getD l.var false

end Graph

namespace Encoder

/-- The boolean variables of all variables at each of the times from `first` on. -/
def frame (vars : List Variable) : Nat → UInt64 → StateM Encoding (List (List Lit))
  | 0, _ => return []
  | count + 1, time => do
    let now ← vars.mapM fun v => Encoding.variableAt v.index time
    return now :: (← frame vars count (time + 1))

def pathVariables (length : Int64) : EncodeM (List (List Lit)) := do
  onEncoding (frame (← get).encoding.vars.toList (length.toInt + 1).toNat 0)

def extract (ρ : Assignment) (length : Int64) (loopback : Loop) : EncodeM Trace := do
  let rows ← pathVariables length
  return ⟨(← get).encoding.vars, rows.map fun row => row.map (ρ ·.var), loopback⟩

def paths [Solver] (roots : List Lit) (length : Int64) (limit : Nat) :
    EncodeM (List (List Bool)) := do
  let rows ← pathVariables length
  return (← get).encoding.graph.modelsOn roots (rows.flatten.map (·.var)) limit

end Encoder

end Lasso
