import Lasso.Formula.Table
import Lasso.SExpr.Interpreter

/-! # Reading formulas

A list headed by the name of an operator is a formula with that operator, where conjunction and
disjunction take two or more operands.  Everything else is an atomic proposition.
-/

namespace Lasso

set_option autoImplicit false

namespace Formula

def chain (op : BinaryOp) (f g : Formula) (rest : List Formula) : Formula :=
  rest.foldl (.binary op) (.binary op f g)

def apply (op : Operator) (name : String) (args : List Formula) : Except String Formula :=
  match op, args with
  | .binary .and, f :: g :: rest => .ok (chain .and f g rest)
  | .binary .or, f :: g :: rest => .ok (chain .or f g rest)
  | .binary .and, _ | .binary .or, _ => .error (name ++ " requires at least two arguments")
  | .unary op, [f] => .ok (.unary op f)
  | .unary _, _ => .error (name ++ " requires exactly one argument")
  | .binary op, [f, g] => .ok (.binary op f g)
  | _, _ => .error (name ++ " requires exactly two arguments")

def ofItems (items : List Term) : Except String Formula :=
  if items.isEmpty then .error "empty atomic proposition"
  else .ok (.atom (.list () (SExpr.mapItems (fun _ => ()) items)))

def interpreter : Interpreter Formula where
  symbols := [fun name => some (.ok (.atom (.symbol () name)))]
  lists name := (Operator.ofName? name).map fun op => .items (apply op)
  otherwise := some (.whole ofItems)

end Formula

namespace Table

/-- Adds every formula that has a span.  The formula in the table is then the one with the span. -/
def internSpans (spans : SpanMap Formula) : StateM Table (SpanMap Formula) :=
  spans.entries.foldlM (fun kept (part, span) => return kept.insertIfNew (← intern part) span) {}

/-- The formula of a term.  Whatever parts of the term are formulas enter the table, even if the
term as a whole is not one. -/
def interpret (t : Term) : StateM Table (Interpreter.Outcome Formula × SpanMap Formula) := do
  let (outcome, spans) := (Formula.interpreter.interpret t).run {}
  let spans ← internSpans spans
  match outcome with
  | .ok f => return (.ok (← intern f), spans)
  | .error es => return (.error es, spans)

/-- The formula of a source that holds exactly one, and where its parts stand. -/
def readSpans (s : Source) : StateM Table (Interpreter.Outcome Formula × SpanMap Formula) :=
  match s.term with
  | .error e => return (.error [e], {})
  | .ok t => interpret t

def read (s : Source) : StateM Table (Interpreter.Outcome Formula) := do
  return (← readSpans s).1

def standalone (text : List Char) : Source := ⟨"<formula>", text⟩

def readText (text : List Char) : StateM Table (Except SyntaxError Formula) := do
  match ← read (standalone text) with
  | .ok f => return .ok f
  | .error es => return .error (es.headD (Term.endOfFile text.length))

end Table

end Lasso
