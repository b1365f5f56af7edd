/-! # Binary floating-point numbers

Non-negative numbers with 53 significant bits and a limited range of exponents, in which quotients
are rounded to the nearest number.
-/

namespace Lasso

set_option autoImplicit false

/-- The number `mantissa * 2 ^ exponent`.  Numbers made by `ofRatio?` have a mantissa below
`2 ^ 53`, and one of at least `2 ^ 52` unless the exponent is the least. -/
structure Binary where
  mantissa : Nat
  exponent : Int
  deriving DecidableEq, Repr

namespace Binary

def precision : Nat := 53

def leastNormal : Nat := Nat.pow 2 (precision - 1)

def leastExponent : Int := -1074

def greatestExponent : Int := 971

/-- A quotient rounded to the nearest integer, and a half to the even neighbour. -/
def roundDiv (num den : Nat) : Nat :=
  let q := num / den
  let r := num % den
  if 2 * r < den ∨ (2 * r = den ∧ q % 2 = 0) then q else q + 1

def scaled (num den : Nat) (power : Int) : Nat × Nat :=
  (num * Nat.pow 2 power.toNat, den * Nat.pow 2 (-power).toNat)

def magnitude (num den : Nat) : Int :=
  let e : Int := num.log2 - den.log2
  let (n, d) := scaled num den (-e)
  if n < d then e - 1 else e

def ofRatio? (num den : Nat) : Option Binary :=
  if num = 0 then some ⟨0, leastExponent⟩
  else
    let e := max (magnitude num den - (precision - 1)) leastExponent
    let (n, d) := scaled num den (-e)
    let m := roundDiv n d
    let b : Binary := if m = 2 * leastNormal then ⟨leastNormal, e + 1⟩ else ⟨m, e⟩
    if b.exponent > greatestExponent then none else some b

def ratio (b : Binary) : Nat × Nat := scaled b.mantissa 1 b.exponent

def floor (b : Binary) : Nat := b.ratio.1 / b.ratio.2

def mul? (a b : Binary) : Option Binary :=
  ofRatio? (a.ratio.1 * b.ratio.1) (a.ratio.2 * b.ratio.2)

end Binary

end Lasso
