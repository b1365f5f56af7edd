import Lasso.Settings.Date
import Lasso.Settings.Value
import Lasso.Text.Base64

/-! # Values of scalars

A plain scalar is taken for a number, a truth value, a date or nothing if it looks like one.  Any
other scalar is a text.  A tag says what a scalar has to be, however it is written.
-/

namespace Lasso

set_option autoImplicit false

namespace Scalar

def fraction? (negative : Bool) (cs : List Char) : Option Value :=
  ((Decimal.read? cs).bind Decimal.toBinary?).map (.fraction negative)

def signedLast? : List Char → Option Int64
  | '0' :: 'b' :: cs => digits? 2 cs
  | '0' :: 'o' :: cs => digits? 8 cs
  | _ => none
where
  /-- Digits with a sign. -/
  digits? (base : Nat) (cs : List Char) : Option Int64 :=
    let (negative, digits) := Text.splitSign cs
    (Text.natural? base digits).bind (Text.signed? negative)

/-- A number that starts with a digit or a sign, where underscores do not matter.  An integer that
is no word with a sign may still be one without. -/
def number? (cs : List Char) : Option Value :=
  let cs := cs.filter (· ≠ '_')
  let word := (Text.literal? cs).map fun n => Value.integer n.toInt
  let natural := ((Text.magnitude? cs).filter (· < 2 * Text.signLimit)).map fun n => .integer n
  let (negative, size) := Text.splitSign cs
  let based := (signedLast? cs).map fun n => .integer n.toInt
  word.or (natural.or ((fraction? negative size).or based))

def resolve (dates : Bool) (s : String) : Value :=
  match s with
  | "" | "~" | "null" | "Null" | "NULL" => .nothing
  | "true" | "True" | "TRUE" => .boolean true
  | "false" | "False" | "FALSE" => .boolean false
  | ".nan" | ".NaN" | ".NAN" => .undefined
  | ".inf" | ".Inf" | ".INF" | "+.inf" | "+.Inf" | "+.INF" => .infinite false
  | "-.inf" | "-.Inf" | "-.INF" => .infinite true
  | s =>
    let number := match s.toList with
      | '.' :: cs => (Text.joinDigits? 10 false ('.' :: cs)).bind (fraction? false)
      | c :: cs =>
        if dates && Date.isDate (c :: cs) then some .date
        else if c.isDigit || c = '+' || c = '-' then number? (c :: cs)
        else none
      | [] => none
    number.getD (.text s)

def widen? (n : Int) : Option Value :=
  if n < Text.signLimit then (Binary.ofRatio? n.natAbs 1).map (.fraction (n < 0)) else none

def tagged? (tag : String) (s : String) : Option Value :=
  match tag with
  | "!!int" =>
    match resolve false s with
    | .integer n => some (.integer n)
    | _ => none
  | "!!float" =>
    match resolve false s with
    | .integer n => widen? n
    | .fraction negative size => some (.fraction negative size)
    | .infinite negative => some (.infinite negative)
    | .undefined => some .undefined
    | _ => none
  | "!!bool" =>
    match resolve false s with
    | .boolean b => some (.boolean b)
    | _ => none
  | "!!null" => if resolve false s = .nothing then some .nothing else none
  | "!!timestamp" => if resolve true s = .date then some .date else none
  | "!!binary" => (Text.Base64.decode? s.toList).map fun cs => .text (String.ofList cs)
  | _ => some (.text s)

def value? (tag : String) (isPlain : Bool) (s : String) : Option Value :=
  if tag ≠ "" then tagged? tag s
  else if isPlain then some (resolve true s)
  else some (.text s)

end Scalar

end Lasso
