import Lasso.Bounded.Checker

/-! # Checking invariants

A property of states is proved invariant by induction on the length of paths: of one step, or of as
many steps as it takes on paths without repeated states.
-/

namespace Lasso

set_option autoImplicit false

namespace Encoder

def baseCase (m : Machine) (prop : Lit) : EncodeM Lit := do
  let initial ← onEncoding (m.path 0)
  let holds ← onEncoding (Encoding.instantiate prop 0)
  onGraph (Graph.implies initial holds)

def inductiveStep (m : Machine) (prop : Lit) : EncodeM Lit := do
  let before ← onEncoding (Encoding.instantiate prop 0)
  let after ← onEncoding (Encoding.instantiate prop 1)
  let step ← onEncoding (m.unroll 0 1)
  let premise ← onGraph (Graph.and before step)
  onGraph (Graph.implies premise after)

/-- The property is not proved by induction. -/
def inductionProblem (m : Machine) (prop : Lit) : EncodeM Lit := do
  let base ← baseCase m prop
  let step ← inductiveStep m prop
  return (← onGraph (Graph.and base step)).not

def solve [Solver] (roots : List Lit) : EncodeM (Option Assignment) := do
  return (← get).encoding.graph.solve roots

def checkProperty (prop : Lit) : EncodeM (Option EncodeError) := do
  if (← get).encoding.isStateExpr prop then return none
  return some (.argument .notOverState)

/-- Proves an invariant by simple induction.  A property that is not inductive may still hold. -/
def checkInduction [Solver] (m : Machine) (prop : Lit) : EncodeM CheckResult := do
  match ← checkProperty prop with
  | some e => return .failure 0 e
  | none =>
    let base ← baseCase m prop
    match ← solve [base.not] with
    | some ρ => return { outcome := .counterexample, bound := 0, trace? := ← extract ρ 0 .none }
    | none =>
      let step ← inductiveStep m prop
      match ← solve [step.not] with
      | none => return { outcome := .proved, bound := 1 }
      | some _ => return { outcome := .unknown, bound := 1 }

/-- Adds to a result that the state of one time differs from those of `count` times from `later`
on. -/
def differsFrom (time : UInt64) : Nat → UInt64 → Lit → EncodeM Lit
  | 0, _, result => return result
  | count + 1, later, result => do
    let vs := (← get).encoding.stateVariables
    let same ← onEncoding (sameAt later time vs Graph.truth)
    differsFrom time count (later + 1) (← onGraph (Graph.and result same.not))

/-- Adds to a result that no state is repeated in `count` steps from a time on. -/
def differ : Nat → UInt64 → Lit → EncodeM Lit
  | 0, _, result => return result
  | count + 1, time, result => do
    differ count (time + 1) (← differsFrom time (count + 1) (time + 1) result)

/-- No state is repeated between time zero and a bound.  Nothing is asked up to a negative bound. -/
def loopFree (last : Int64) : EncodeM Lit := differ last.toNatClampNeg 0 Graph.truth

/-- A path of a length ends in a violation. -/
def baseProblem (m : Machine) (prop : Lit) (k : UInt64) : EncodeM (List Lit) := do
  let holds ← onEncoding (Encoding.instantiate prop k)
  let path ← onEncoding (m.path k)
  return [path, holds.not]

/-- Steps that repeat no state lead to a violation after a given time. -/
def stepProblem (m : Machine) (prop : Lit) (k : Int64) : EncodeM (List Lit) := do
  let before ← onEncoding (Encoding.always prop 0 k.toUInt64)
  let after ← onEncoding (Encoding.instantiate prop (k + 1).toUInt64)
  let steps ← onEncoding (m.unroll 0 (k + 1).toUInt64)
  let distinct ← loopFree (k + 1)
  return [steps, distinct, before, after.not]

/-- Looks for a counterexample or a proof with paths of `count` lengths from `k` on.  As in
`searchFrom` the largest length is out of reach. -/
def induceFrom [Solver] (m : Machine) (prop : Lit) (bound : Int64) :
    Nat → Int64 → EncodeM CheckResult
  | 0, k =>
    if k ≤ bound then return .overrun bound
    else return { outcome := .noCounterexample, bound }
  | count + 1, k => do
    match ← solve (← baseProblem m prop k.toUInt64) with
    | some ρ =>
      if k = Int64.maxValue then return .overrun k
      return { outcome := .counterexample, bound := k, trace? := ← extract ρ k .none }
    | none =>
      match ← solve (← stepProblem m prop k) with
      | none => return { outcome := .proved, bound := k }
      | some _ => induceFrom m prop bound count (k + 1)

/-- Proves or refutes an invariant by induction on paths of length up to a bound: a shortest path to
a violation repeats no state. -/
def checkTemporalInduction [Solver] (m : Machine) (prop : Lit) (bound : Int64) :
    EncodeM CheckResult := do
  if bound < 0 then return .failure 0 (.argument (.negativeBound bound))
  match ← checkProperty prop with
  | some e => return .failure 0 e
  | none => induceFrom m prop bound (bound.toInt + 1).toNat 0

def refutations [Solver] (m : Machine) (prop : Lit) (k : Int64) (limit : Nat) :
    EncodeM (List (List Bool)) := do
  paths (← baseProblem m prop k.toUInt64) k limit

end Encoder

end Lasso
