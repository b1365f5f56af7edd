import Lasso.SExpr.Reader
import Lasso.Source.SpanMap

/-! # Values of terms

Terms become values by rules for symbols and rules for lists, the latter chosen by the name at
the head of a list.  Every value is registered with the span of the term it comes from, where
the first term to give a value keeps it.  All mistakes beneath a list are reported, and a list is
not itself given a value while there are any.
-/

namespace Lasso

set_option autoImplicit false

/-- How a list becomes a value: from the values of the items after its head, or as a whole. -/
inductive ListRule (α : Type) where
  | items (combine : String → List α → Except String α)
  | whole (value : List Term → Except String α)

/-- Rules for the values of terms.  A symbol rule may not apply, and the first that does decides. -/
structure Interpreter (α : Type) where
  symbols : List (String → Option (Except String α))
  lists : String → Option (ListRule α)
  otherwise : Option (ListRule α)

namespace Interpreter

variable {α : Type} [BEq α] [Hashable α]

/-- The rule for a list.  A list without a name at its head has only the general rule. -/
def ruleFor (t : Interpreter α) (items : List Term) : Option (ListRule α) :=
  let name := SExpr.headName items
  if name = "" then t.otherwise else (t.lists name).or t.otherwise

abbrev Outcome (α : Type) := Except (List SyntaxError) α

/-- Attributes the result of a rule to a span, where a value is registered. -/
def settle (span : Span) (result : Except String α) : StateM (SpanMap α) (Outcome α) := do
  match result with
  | .error message => return .error [⟨span, message⟩]
  | .ok value =>
    modify (·.insertIfNew value span)
    return .ok value

def join (first : Outcome α) (rest : Outcome (List α)) : Outcome (List α) :=
  match first, rest with
  | .ok value, .ok values => .ok (value :: values)
  | .ok _, .error es => .error es
  | .error es, .ok _ => .error es
  | .error es, .error fs => .error (es ++ fs)

mutual

def interpret (t : Interpreter α) : Term → StateM (SpanMap α) (Outcome α)
  | .symbol span name =>
    settle span <| (t.symbols.findSome? (· name)).getD
      (.error ("unknown symbol \"" ++ name ++ "\""))
  | .list span items =>
    match t.ruleFor items with
    | none => return .error [⟨span, "unknown list encountered"⟩]
    | some (.whole rule) => settle span (rule items)
    | some (.items combine) => do
      match ← interpretTail t items with
      | .error es => return .error es
      | .ok values => settle span (combine (SExpr.headName items) values)

def interpretTail (t : Interpreter α) : List Term → StateM (SpanMap α) (Outcome (List α))
  | [] => return .ok []
  | _ :: items => interpretItems t items

def interpretItems (t : Interpreter α) : List Term → StateM (SpanMap α) (Outcome (List α))
  | [] => return .ok []
  | item :: items => do
    let first ← interpret t item
    let rest ← interpretItems t items
    return join first rest

end

end Interpreter

end Lasso
