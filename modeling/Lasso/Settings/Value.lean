import Lasso.Settings.Duration

/-! # Values of settings

A setting is given as a text, a number or a truth value.  What is wanted is made from what is given
as far as that makes sense: a text is read, a number is cut to its integer part, a truth value
counts as one or zero, and nothing counts as the empty value.
-/

namespace Lasso

set_option autoImplicit false

inductive Value where
  | nothing
  | boolean (b : Bool)
  | integer (n : Int)
  | fraction (negative : Bool) (size : Binary)
  | infinite (negative : Bool)
  | undefined
  | text (s : String)
  /-- A date, from which nothing can be made. -/
  | date
  /-- A value with parts, from which nothing can be made. -/
  | collection
  deriving DecidableEq, Repr

namespace Value

/-- The word taken for numbers out of range. -/
def outOfRange : Int64 := Int64.minValue

def truncate (negative : Bool) (size : Binary) : Int64 :=
  (Text.signed? negative size.floor).getD outOfRange

def number? : Value → Option Int64
  | nothing => some 0
  | boolean b => some (if b then 1 else 0)
  | integer n => some (Int64.ofInt n)
  | fraction negative size => some (truncate negative size)
  | infinite _ | undefined => some outOfRange
  | text _ | date | collection => none

def toWord? : Value → Option Int64
  | text "" => some 0
  | text s => Text.literal? s.toList
  | v => v.number?

def toDuration? : Value → Option Int64
  | text s => Duration.read? s
  | v => v.number?

def toBool? : Value → Option Bool
  | nothing => some false
  | boolean b => some b
  | integer n => some (n ≠ 0)
  | fraction _ size => some (size.mantissa ≠ 0)
  | infinite _ | undefined => some true
  | text "" => some false
  | text s => Text.boolean? s
  | date | collection => none

def toText? : Value → Option String
  | nothing => some ""
  | boolean b => some (if b then "1" else "0")
  | integer n => some (toString n)
  | fraction negative size => some ((if negative then "-" else "") ++ size.shortest.render)
  | infinite negative => some (if negative then "-Inf" else "+Inf")
  | undefined => some "NaN"
  | text s => some s
  | date | collection => none

end Value

/-- Settings from one source, by name.  The last value of a name counts. -/
abbrev Layer := List (String × Value)

namespace Layer

def get? (l : Layer) (name : String) : Option Value :=
  (l.reverse.find? (·.1 = name)).map (·.2)

end Layer

end Lasso
