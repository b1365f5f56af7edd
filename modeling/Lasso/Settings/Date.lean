import Lasso.Text.Numeral

/-! # Dates

A date has a year of four digits, a month and a day, and may be followed by a time of day.  A
letter between them asks for a zone, and blanks for none.
-/

namespace Lasso.Date

set_option autoImplicit false

def number? (cs : List Char) : Option (Nat × List Char) :=
  let digits := (cs.take 2).takeWhile Char.isDigit
  (Text.natural? 10 digits).map fun n => (n, cs.drop digits.length)

def below? (limit : Nat) (cs : List Char) : Option (Nat × List Char) :=
  (number? cs).filter (·.1 < limit)

def after? (c : Char) : List Char → Option (List Char)
  | d :: cs => if c = d then some cs else none
  | [] => none

def isLeap (year : Nat) : Bool := year % 4 = 0 && (year % 100 ≠ 0 || year % 400 = 0)

def daysIn (year month : Nat) : Nat :=
  if month = 2 then if isLeap year then 29 else 28
  else if [4, 6, 9, 11].contains month then 30
  else 31

def day? (cs : List Char) : Option (List Char) := do
  let year ← Text.natural? 10 (cs.takeWhile Char.isDigit)
  if (cs.takeWhile Char.isDigit).length ≠ 4 then none
  let (month, rest) ← below? 13 (← after? '-' (cs.drop 4))
  let (day, rest) ← number? (← after? '-' rest)
  if month = 0 || day = 0 || daysIn year month < day then none else return rest

def dropFraction : List Char → List Char
  | c :: d :: cs =>
    if (c = '.' || c = ',') && d.isDigit then cs.dropWhile Char.isDigit else c :: d :: cs
  | cs => cs

def time? (cs : List Char) : Option (List Char) := do
  let (_, rest) ← below? 24 cs
  let (_, rest) ← below? 60 (← after? ':' rest)
  let (_, rest) ← below? 60 (← after? ':' rest)
  return dropFraction rest

/-- Whether a text is a zone: a letter, or a distance in hours and minutes. -/
def isZone : List Char → Bool
  | ['Z'] => true
  | [sign, a, b, ':', c, d] =>
    (sign = '+' || sign = '-') && [a, b, c, d].all Char.isDigit &&
      ((below? 25 [a, b]).isSome && (below? 61 [c, d]).isSome)
  | _ => false

def isDate (cs : List Char) : Bool :=
  match day? cs with
  | none => false
  | some [] => true
  | some (c :: rest) =>
    if c = 'T' || c = 't' then (time? rest).any isZone
    else if c = ' ' then time? (rest.dropWhile (· = ' ')) = some []
    else false

end Lasso.Date
