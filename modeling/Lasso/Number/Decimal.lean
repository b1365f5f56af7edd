import Lasso.Number.Binary
import Lasso.Text.Numeral

/-! # Decimal fractions

Binary numbers are read from decimal fractions, and written with as few digits as it takes to read
the same number back.
-/

namespace Lasso

set_option autoImplicit false

structure Decimal where
  digits : Nat
  exponent : Int
  deriving DecidableEq, Repr

namespace Decimal

def ratio (d : Decimal) : Nat × Nat :=
  (d.digits * Nat.pow 10 d.exponent.toNat, Nat.pow 10 (-d.exponent).toNat)

/-- No number with this many digits before the point is small enough. -/
def mostDigits : Int := 310

/-- A number with this many zeros after the point counts as zero. -/
def mostZeros : Int := 330

def toBinary? (d : Decimal) : Option Binary :=
  let size := (Nat.toDigits 10 d.digits).length + d.exponent
  if d.digits = 0 ∨ size < -mostZeros then Binary.ofRatio? 0 1
  else if size > mostDigits then none
  else Binary.ofRatio? d.ratio.1 d.ratio.2

def exponent? : List Char → Option Int
  | [] => some 0
  | c :: cs =>
    if c.toLower = 'e' then
      let (negative, digits) := Text.splitSign cs
      (Text.natural? 10 digits).map fun n => if negative then -(n : Int) else n
    else none

/-- A decimal fraction without a sign: digits with a point among them or not, and an exponent. -/
def read? (cs : List Char) : Option Decimal := do
  let whole := cs.takeWhile Char.isDigit
  let rest := cs.dropWhile Char.isDigit
  let (part, rest) := match rest with
    | '.' :: rest => (rest.takeWhile Char.isDigit, rest.dropWhile Char.isDigit)
    | rest => ([], rest)
  let digits ← Text.natural? 10 (whole ++ part)
  return ⟨digits, (← exponent? rest) - part.length⟩

def render (d : Decimal) : String :=
  let digits := Nat.toDigits 10 d.digits
  let places := (-d.exponent).toNat
  if places = 0 then String.ofList (digits ++ List.replicate d.exponent.toNat '0')
  else
    let padded := List.replicate (places + 1 - digits.length) '0' ++ digits
    let whole := padded.length - places
    String.ofList (padded.take whole ++ '.' :: padded.drop whole)

end Decimal

namespace Binary

/-- Whether a decimal fraction reads back as a positive binary number.  The fractions that do lie
between the middles to the two neighbours, which belong to numbers with an even mantissa; below a
power of two the neighbour is nearer. -/
def reads (b : Binary) (d : Decimal) : Bool :=
  let gap := if b.mantissa = leastNormal ∧ b.exponent > leastExponent then 1 else 2
  let (n, m) := scaled d.ratio.1 d.ratio.2 (2 - b.exponent)
  if b.mantissa % 2 = 0 then (4 * b.mantissa - gap) * m ≤ n && n ≤ (4 * b.mantissa + 2) * m
  else (4 * b.mantissa - gap) * m < n && n < (4 * b.mantissa + 2) * m

/-- Of the two neighbouring fractions with an exponent, the nearer one that reads back, where a tie
goes to the one below. -/
def neighbour? (b : Binary) (exponent : Int) : Option Decimal :=
  let (n, d) := b.ratio
  let n := n * Nat.pow 10 (-exponent).toNat
  let d := d * Nat.pow 10 exponent.toNat
  let low : Decimal := ⟨n / d, exponent⟩
  let high : Decimal := ⟨n / d + 1, exponent⟩
  let near := if 2 * (n % d) ≤ d then low else high
  if b.reads near then some near
  else if b.reads low then some low
  else if b.reads high then some high
  else none

def shortestFrom (b : Binary) : Nat → Int → Decimal
  | 0, _ => ⟨0, 0⟩
  | count + 1, exponent =>
    match b.neighbour? exponent with
    | some d => d
    | none => shortestFrom b count (exponent - 1)

def shortest (b : Binary) : Decimal :=
  if b.mantissa = 0 then ⟨0, 0⟩ else shortestFrom b 700 Decimal.mostDigits

end Binary

end Lasso
