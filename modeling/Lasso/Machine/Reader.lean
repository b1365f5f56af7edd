import Lasso.Formula.Reader
import Lasso.Machine.Basic
import Lasso.Machine.Condition

/-! # Model files

A model is a sequence of declarations, in any order: variables, constraints and properties.
Variables are declared first; if that goes well, constraints of the same kind are conjoined in the
order of the file.  Every mistake is reported at the expression it concerns.
-/

namespace Lasso

set_option autoImplicit false

structure Model where
  encoding : Encoding
  machine : Machine

namespace Model

structure Reading where
  encoding : Encoding := {}
  machine : Machine := {}
  table : Table
  errors : Array SyntaxError := #[]

abbrev Read := StateM Reading

def report (span : Span) (message : String) : Read Unit :=
  modify fun r => { r with errors := r.errors.push ⟨span, message⟩ }

def onEncoding {α : Type} (m : StateM Encoding α) : Read α := fun r =>
  match r with
  | ⟨encoding, machine, table, errors⟩ =>
    let (a, encoding) := m encoding
    (a, ⟨encoding, machine, table, errors⟩)

def onTable {α : Type} (m : StateM Table α) : Read α := fun r =>
  match r with
  | ⟨encoding, machine, table, errors⟩ =>
    let (a, table) := m table
    (a, ⟨encoding, machine, table, errors⟩)

def setMachine (m : Machine) : Read Unit := modify fun r => { r with machine := m }

def declareItem (input : Bool) (item : Term) : Read Unit := do
  match item with
  | .symbol span name =>
    match ← onEncoding (Encoding.declare input name) with
    | .ok _ => return
    | .error e => report span e.message
  | .list span _ => report span "invalid variable name"

def readVariables (t : Term) : Read Unit := do
  match t with
  | .symbol span _ => report span "invalid declaration"
  | .list span items =>
    let head := SExpr.headName items
    if head = "" then report span "invalid declaration"
    else if head = "var" ∨ head = "input" then
      if items.length = 1 then report span "expected one or more variables"
      else items.tail.forM (declareItem (head = "input"))

def readCondition (permitNext : Bool) (t : Term) : Read (Option Lit) := do
  match ← onEncoding (Encoding.condition permitNext t).run with
  | .ok l => return some l
  | .error e =>
    report e.expr.note e.message
    return none

def readConstraint (span : Span) (head : String) (items : List Term) (permitNext : Bool)
    (add : Machine → Lit → StateM Encoding Machine) : Read Unit := do
  match items with
  | [_, t] =>
    if let some l ← readCondition permitNext t then
      setMachine (← onEncoding (add (← get).machine l))
  | _ => report span (head ++ " requires exactly one expression")

def property? (standard : String) : List Term → Option (String × Term)
  | [_, t] => some (standard, t)
  | [_, .symbol _ name, t] => some (name, t)
  | _ => none

def readSpec (span : Span) (items : List Term) : Read Unit := do
  match property? ("spec_" ++ toString (← get).machine.specs.size) items with
  | none => report span "expected (ltlspec [name] formula)"
  | some (name, t) =>
    match (← onTable (Table.interpret t)).1 with
    | .error es => modify fun r => { r with errors := r.errors ++ es }
    | .ok f => setMachine ((← get).machine.addSpec name f)

def readInvariant (span : Span) (items : List Term) : Read Unit := do
  match property? ("invar_" ++ toString (← get).machine.invariants.size) items with
  | none => report span "expected (invarspec [name] expression)"
  | some (name, t) =>
    if let some l ← readCondition false t then
      if (← get).encoding.isStateExpr l then setMachine ((← get).machine.addInvariant name l)
      else report t.note "invariant cannot mention input variables"

def readDeclaration (t : Term) : Read Unit := do
  match t with
  | .symbol _ _ => return
  | .list span items =>
    match SExpr.headName items with
    | "var" | "input" => return
    | "init" => readConstraint span "init" items false Machine.addInit
    | "invar" => readConstraint span "invar" items false Machine.addInvar
    | "trans" => readConstraint span "trans" items true Machine.addTrans
    | "fairness" => readConstraint span "fairness" items false fun m l => return m.addFairness l
    | "justice" => readConstraint span "justice" items false fun m l => return m.addFairness l
    | "ltlspec" => readSpec span items
    | "invarspec" => readInvariant span items
    | head => report span ("unknown declaration \"" ++ head ++ "\"")

def readTerms (ts : List Term) : Read Unit := do
  ts.forM readVariables
  if (← get).errors.isEmpty then ts.forM readDeclaration

def read (s : Source) : StateM Table (Except (List SyntaxError) Model) := do
  match s.terms with
  | .error e => return .error [e]
  | .ok ts =>
    let r := ((readTerms ts).run { table := ← get }).2
    set r.table
    if r.errors.isEmpty then return .ok ⟨r.encoding, r.machine⟩
    else return .error r.errors.toList

end Model

end Lasso
