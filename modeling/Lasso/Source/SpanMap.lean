import Std.Data.HashMap
import Lasso.Source.Span

/-! # Span maps

A span map remembers where in a text each item comes from.  An item has at most one span.
-/

namespace Lasso

set_option autoImplicit false

structure SpanMap (α : Type) [BEq α] [Hashable α] where
  spans : Std.HashMap α Span

namespace SpanMap

variable {α : Type} [BEq α] [Hashable α]

inductive KeyError (α : Type) where
  | duplicate (item : α)
  | missing (item : α)

def KeyError.message {α : Type} (print : α → String) : KeyError α → String
  | .duplicate item => "source map key already exists: " ++ print item
  | .missing item => "invalid source map key: " ++ print item

def empty : SpanMap α := ⟨{}⟩

instance : EmptyCollection (SpanMap α) := ⟨empty⟩

def get? (m : SpanMap α) (item : α) : Option Span := m.spans[item]?

def contains (m : SpanMap α) (item : α) : Bool := m.spans.contains item

def entries (m : SpanMap α) : List (α × Span) := m.spans.toList

def get (m : SpanMap α) (item : α) : Except (KeyError α) Span :=
  match m.get? item with
  | some span => .ok span
  | none => .error (.missing item)

def insertNew (m : SpanMap α) (item : α) (span : Span) : Except (KeyError α) (SpanMap α) :=
  if m.contains item then .error (.duplicate item) else .ok ⟨m.spans.insert item span⟩

/-- Adds an item unless it has a span already. -/
def insertIfNew (m : SpanMap α) (item : α) (span : Span) : SpanMap α :=
  ⟨m.spans.insertIfNew item span⟩

def errorAt? (m : SpanMap α) (item : α) (message : String) : Option SyntaxError :=
  (m.get? item).map fun span => ⟨span, message⟩

end SpanMap

end Lasso
