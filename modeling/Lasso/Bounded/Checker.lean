import Lasso.Bounded.Trace
import Lasso.Sat.Session

/-! # Checking properties

A property is checked by looking for paths that violate it, in order of their length.  Each length
is a problem of its own, or all lengths share the facts of one session.
-/

namespace Lasso

set_option autoImplicit false

inductive Outcome where
  | noCounterexample
  | counterexample
  | unknown
  | proved
  deriving DecidableEq, Repr

def Outcome.text : Outcome → String
  | .noCounterexample => "no counterexample"
  | .counterexample => "counterexample"
  | .unknown => "unknown"
  | .proved => "proved"

/-- The outcome of a check, the length it was reached at, and the path or error that goes with
it. -/
structure CheckResult where
  outcome : Outcome
  bound : Int64
  trace? : Option Trace := none
  error? : Option EncodeError := none

namespace CheckResult

def failure (bound : Int64) (e : EncodeError) : CheckResult :=
  { outcome := .unknown, bound, error? := some e }

/-- The end of a run that gets to paths with more states than a word can count.  It is a failure of
the runtime, without a text of its own: the error stands for the length after the largest, which is
negative. -/
def overrun (bound : Int64) : CheckResult := failure bound (.argument (.negativeBound (bound + 1)))

end CheckResult

namespace Encoder

/-- Looks for values under which a violation holds on a path of a length, keeping what is needed
for the next length. -/
abbrev Attack (σ : Type) := Int64 → Lit → σ → EncodeM (Option Assignment × σ)

def attackAfresh [Solver] (m : Machine) : Attack Unit := fun k violated _ => do
  let path ← onEncoding (m.path k.toUInt64)
  return ((← get).encoding.graph.solve [path, violated], ())

structure Unrolled where
  session : Session
  length : Int64

def extend (m : Machine) : Nat → Unrolled → EncodeM Unrolled
  | 0, u => return u
  | count + 1, u => do
    let step ← onEncoding (m.unroll u.length.toUInt64 (u.length + 1).toUInt64)
    extend m count ⟨u.session.add [step], u.length + 1⟩

/-- All lengths in one session, where the violation is only assumed. -/
def attackOnward [Solver] (m : Machine) : Attack Unrolled := fun k violated u => do
  let u ← extend m (k.toInt - u.length.toInt).toNat u
  return (u.session.solve (← get).encoding.graph [violated], u)

/-- The first of some loops on which a formula in normal form holds under an assignment. -/
def firstLoop (m : Machine) (f : Formula) (k : Int64) (ρ : Assignment) :
    List Int64 → EncodeM (Except EncodeError Loop)
  | [] => return .ok .none
  | l :: ls => do
    let r ← onLoop m f k ⟨l⟩ 0 true
    match r.error? with
    | some e => return .error e
    | none =>
      if (← get).encoding.graph.evaluate ρ r.expr then return .ok ⟨l⟩
      firstLoop m f k ρ ls

/-- The loop on which an assignment violates a formula.  If all loops were considered, a path
without a loop is preferred, and then an early loop. -/
def witness (m : Machine) (f : Formula) (k : Int64) (l : Loop) (ρ : Assignment) :
    EncodeM (Except EncodeError Loop) := do
  if !l.isAll then return .ok (l.absolute k)
  let f ← onTable (Table.negation f)
  let r ← onStraight m f k 0 true
  match r.error? with
  | some e => return .error e
  | none =>
    if (← get).encoding.graph.evaluate ρ r.expr then return .ok .none
    firstLoop m f k ρ (times 0 k)

def feasible (l : Loop) (k : Int64) : Bool :=
  !l.isSingle || ((l.absolute k).word ≥ 0 && (l.absolute k).word < k)

/-- Looks for a counterexample among paths of `count` lengths from `k` on.  Lengths are words, and
the largest of them is out of reach: the length after it is negative, and so is the number of states
of its paths. -/
def searchFrom {σ : Type} (m : Machine) (attack : Attack σ) (f : Formula) (bound : Int64)
    (l : Loop) : Nat → Int64 → σ → EncodeM CheckResult
  | 0, k, _ =>
    if k ≤ bound then return .failure k (.argument (.negativeBound k))
    else return { outcome := .noCounterexample, bound }
  | count + 1, k, s => do
    if !feasible l k then searchFrom m attack f bound l count (k + 1) s
    else
      let violated ← violation m f k l
      match violated.error? with
      | some e => return .failure k e
      | none =>
        match ← attack k violated.expr s with
        | (none, s) => searchFrom m attack f bound l count (k + 1) s
        | (some ρ, _) =>
          match ← witness m f k l ρ with
          | .error e => return .failure k e
          | .ok loopback =>
            if k = Int64.maxValue then return .overrun k
            return { outcome := .counterexample, bound := k, trace? := ← extract ρ k loopback }

/-- Looks for a counterexample to a formula among paths of length up to a bound, or of exactly that
length.  Lengths for which a single loop makes no sense are left out. -/
def search {σ : Type} (m : Machine) (attack : Attack σ) (start : σ) (f : Formula) (bound : Int64)
    (l : Loop) (exactly : Bool) : EncodeM CheckResult :=
  match l.check bound with
  | .error e => return .failure 0 (.argument e)
  | .ok () =>
    if f.isPast then return .failure 0 (.uncheckable f)
    else if exactly then searchFrom m attack f bound l 1 bound start
    else searchFrom m attack f bound l (bound.toInt + 1).toNat 0 start

def check [Solver] (m : Machine) (f : Formula) (bound : Int64) (l : Loop) (exactly : Bool) :
    EncodeM CheckResult :=
  search m (attackAfresh m) () f bound l exactly

def checkIncremental [Solver] (m : Machine) (f : Formula) (bound : Int64) (l : Loop)
    (exactly : Bool) :
    EncodeM CheckResult := do
  let path ← onEncoding (m.path 0)
  search m (attackOnward m) ⟨Session.add {} [path], 0⟩ f bound l exactly

def violations [Solver] (m : Machine) (f : Formula) (k : Int64) (l : Loop) (limit : Nat) :
    EncodeM (List (List Bool)) := do
  let violated ← violation m f k l
  let path ← onEncoding (m.path k.toUInt64)
  paths [path, violated.expr] k limit

end Encoder

end Lasso
