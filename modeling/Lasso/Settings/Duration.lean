import Lasso.Number.Decimal

/-! # Durations

A duration is a sum of amounts with units, such as `1h30m` or `2.5s`, with an optional sign in
front.  It is counted in nanoseconds, of which a signed word can hold about 292 years.
-/

namespace Lasso

set_option autoImplicit false

namespace Duration

def unit? : String → Option Nat
  | "ns" => some 1
  | "us" | "µs" | "μs" => some 1000
  | "ms" => some 1000000
  | "s" => some 1000000000
  | "m" => some 60000000000
  | "h" => some 3600000000000
  | _ => none

def limit : Nat := Text.signLimit

/-- The digits of a fraction that are taken into account: no more than fit into a word. -/
def fractionDigits : Nat → Nat → List Char → Nat × Nat
  | value, count, [] => (value, count)
  | value, count, c :: cs =>
    let next := value * 10 + (c.toNat - '0'.toNat)
    if value > (limit - 1) / 10 ∨ next > limit then (value, count)
    else fractionDigits next (count + 1) cs

def power? : Nat → Option Binary
  | 0 => Binary.ofRatio? 1 1
  | count + 1 => do (← power? count).mul? (← Binary.ofRatio? 10 1)

/-- The whole nanoseconds in a fraction of a unit, computed in binary numbers.  A fraction with too
many digits counts as none. -/
def fraction (digits : List Char) (unit : Nat) : Nat :=
  let (value, count) := fractionDigits 0 0 digits
  let part := do
    let (num, den) := (← power? count).ratio
    (← Binary.ofRatio? value 1).mul? (← Binary.ofRatio? (unit * den) num)
  (part.map Binary.floor).getD 0

def amount? (cs : List Char) : Option (Nat × List Char) := do
  let whole := cs.takeWhile Char.isDigit
  let rest := cs.dropWhile Char.isDigit
  let (part, rest) := match rest with
    | '.' :: rest => (rest.takeWhile Char.isDigit, rest.dropWhile Char.isDigit)
    | rest => ([], rest)
  if whole.isEmpty ∧ part.isEmpty then none
  let name := rest.takeWhile fun c => !(c = '.' || c.isDigit)
  let unit ← unit? (String.ofList name)
  let count := (Text.natural? 10 whole).getD 0
  if count > limit / unit then none
  let total := count * unit + fraction part unit
  if total > limit then none
  return (total, rest.drop name.length)

def sum? : Nat → UInt64 → List Char → Option UInt64
  | _, total, [] => some total
  | 0, _, _ => none
  | fuel + 1, total, cs => do
    let (amount, rest) ← amount? cs
    let total := total + amount.toUInt64
    if total.toNat > limit then none
    sum? fuel total rest

/-- The nanoseconds of a duration.  Zero needs no unit. -/
def read? (s : String) : Option Int64 :=
  let (negative, cs) := Text.splitSign s.toList
  match cs with
  | [] => none
  | ['0'] => some 0
  | cs => (sum? cs.length 0 cs).bind fun total => Text.signed? negative total.toNat

end Duration

end Lasso
