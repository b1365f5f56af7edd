import Lasso.Bounded.Induction
import Lasso.Report.TraceTable

/-! # Reports

What is told about the check of a property: one line, and the path that violates it if there is
one.
-/

namespace Lasso

set_option autoImplicit false

structure Report where
  good : Bool
  text : String

namespace Report

def line (name message : String) : String := name ++ ": " ++ message ++ "\n"

def ofTrace (t? : Option Trace) (coloured : Bool) : String :=
  match t? with
  | some t => t.render coloured
  | none => ""

def ofSpec (spec : Spec) (r : CheckResult) (coloured : Bool) : Report :=
  let formula := spec.formula.text
  let bound := Loop.number r.bound
  match r.error?, r.outcome with
  | some e, _ => ⟨false, line spec.name e.message⟩
  | none, .counterexample =>
    ⟨false, line spec.name (formula ++ " is violated by a path of length " ++ bound) ++
      ofTrace r.trace? coloured⟩
  | none, .unknown =>
    ⟨false, line spec.name (formula ++ " is unknown (gave up at length " ++ bound ++ ")")⟩
  | none, _ =>
    ⟨true, line spec.name ("no counterexample to " ++ formula ++ " up to length " ++ bound)⟩

inductive Method where
  | induction
  | temporalInduction
  deriving DecidableEq

def ofInvariant (name : String) (method : Method) (r : CheckResult) (coloured : Bool) : Report :=
  let bound := Loop.number r.bound
  match r.error?, r.outcome with
  | some e, _ => ⟨false, line name e.message⟩
  | none, .counterexample =>
    ⟨false, line name ("invariant is violated by a path of length " ++ bound) ++
      ofTrace r.trace? coloured⟩
  | none, .proved => ⟨true, line name ("invariant holds (proved at length " ++ bound ++ ")")⟩
  | none, .unknown =>
    if method = .induction then ⟨false, line name "invariant is not inductive"⟩
    else ⟨false, line name ("invariant is unknown (gave up at length " ++ bound ++ ")")⟩
  | none, .noCounterexample =>
    ⟨true, line name ("no counterexample to invariant up to length " ++ bound)⟩

end Report

namespace Encoder

def checkBy [Solver] (m : Machine) (method : Report.Method) (prop : Lit) (bound : Int64) :
    EncodeM CheckResult :=
  match method with
  | .induction => checkInduction m prop
  | .temporalInduction => checkTemporalInduction m prop bound

/-- The problem of violating a formula in the exchange format, after comments that name the
variables it depends on. -/
def dimacs (m : Machine) (f : Formula) (bound : Int64) (l : Loop) :
    EncodeM (Except EncodeError String) := do
  match (← problem m f bound l).toExcept with
  | .error e => return .error e
  | .ok root =>
    let e := (← get).encoding
    let comments := (e.graph.support root).map fun v =>
      "c " ++ toString v.var ++ " " ++ (e.name? v.var).getD "" ++ "\n"
    return .ok (String.join comments ++ (e.graph.dimacs [root]).render)

def encode (m : Machine) (f : Formula) (bound : Int64) (l : Loop) (offset : Int64)
    (fair asProblem : Bool) : EncodeM Encoded :=
  if asProblem then problem m f bound l else semantics m f bound l offset fair

end Encoder

end Lasso
