import Lasso.Graph.Reach
import Lasso.Graph.Render

/-! # Variables on a timeline

A machine's variables are boolean variables of a graph.  Each has a current form and, if it is part
of the state, a next form; these are the forms in which constraints are written down.  A variable
at a time of the global timeline is one more boolean variable, allocated when it is first asked
for.
-/

namespace Lasso

set_option autoImplicit false

/-- Whether a variable is part of the state, and then its next form. -/
inductive Role where
  | state (next : Lit)
  | input
  deriving DecidableEq, Inhabited

structure Variable where
  name : String
  index : Nat
  current : Lit
  role : Role
  deriving DecidableEq, Inhabited

namespace Variable

def isInput (v : Variable) : Bool := v.role = .input

end Variable

/-- What a boolean variable of the graph stands for. -/
inductive Origin where
  | current (index : Nat)
  | next (index : Nat)
  | timed (index : Nat) (time : UInt64)
  deriving DecidableEq, Inhabited

structure Encoding where
  graph : Graph
  /-- The variables in order of declaration. -/
  vars : Array Variable
  /-- What the boolean variables of the graph stand for, by number. -/
  origins : Std.HashMap Nat Origin
  /-- The boolean variable of a variable, by index, at a time. -/
  timeline : Std.HashMap (Nat × UInt64) Lit

inductive DeclareError where
  | duplicate (name : String)
  | reserved (name : String)

def DeclareError.message : DeclareError → String
  | .duplicate name => "variable \"" ++ name ++ "\" already declared"
  | .reserved name => "invalid variable name \"" ++ name ++ "\""

namespace Encoding

def empty : Encoding := ⟨{}, #[], {}, {}⟩

instance : EmptyCollection Encoding := ⟨empty⟩
instance : Inhabited Encoding := ⟨empty⟩

def onGraph {α : Type} (m : StateM Graph α) : StateM Encoding α := fun e =>
  match e with
  | ⟨graph, vars, origins, timeline⟩ =>
    let (a, graph) := m graph
    (a, ⟨graph, vars, origins, timeline⟩)

instance : MonadLift (StateM Graph) (StateM Encoding) := ⟨onGraph⟩

def lookup? (e : Encoding) (name : String) : Option Variable := e.vars.find? (·.name = name)

def stateVariables (e : Encoding) : List Variable := e.vars.toList.filter (!·.isInput)

/-- Names that have another meaning in expressions. -/
def isReserved (name : String) : Bool :=
  name ∈ ["true", "TRUE", "false", "FALSE", "next"]

def allocate (origin : Origin) : StateM Encoding Lit := do
  let l ← (Graph.input : StateM Graph Lit)
  modify fun e => { e with origins := e.origins.insert l.var origin }
  return l

def declare (input : Bool) (name : String) : StateM Encoding (Except DeclareError Variable) := do
  let e ← get
  if (e.lookup? name).isSome then return .error (.duplicate name)
  if isReserved name then return .error (.reserved name)
  let index := e.vars.size
  let current ← allocate (.current index)
  let role ← if input then pure Role.input else Role.state <$> allocate (.next index)
  let v : Variable := { name, index, current, role }
  modify fun e => { e with vars := e.vars.push v }
  return .ok v

def variableAt (index : Nat) (time : UInt64) : StateM Encoding Lit := do
  match (← get).timeline[(index, time)]? with
  | some l => return l
  | none =>
    let l ← allocate (.timed index time)
    modify fun e => { e with timeline := e.timeline.insert (index, time) l }
    return l

def timed? (e : Encoding) (l : Lit) : Option (Nat × UInt64) :=
  match e.origins[l.var]? with
  | some (.timed index time) => some (index, time)
  | _ => none

def nameOfIndex (e : Encoding) (index : Nat) : String :=
  (e.vars[index]?.map (·.name)).getD ""

def name? (e : Encoding) (v : Nat) : Option String :=
  e.origins[v]?.map fun
    | .current index => e.nameOfIndex index
    | .next index => "next(" ++ e.nameOfIndex index ++ ")"
    | .timed index time => e.nameOfIndex index ++ "@" ++ toString time.toNat

/-- The name of a boolean variable as it is printed, where no name counts as an empty one. -/
def printedName (e : Encoding) (v : Nat) : Option String := (e.name? v).filter (· ≠ "")

def render (e : Encoding) (l : Lit) : String := e.graph.render e.printedName l

def isStateExpr (e : Encoding) (l : Lit) : Bool :=
  (e.graph.support l).all fun m =>
    match e.origins[m.var]? with
    | some (.current index) => (e.vars[index]?.map (!·.isInput)).getD false
    | _ => false

end Encoding

end Lasso
