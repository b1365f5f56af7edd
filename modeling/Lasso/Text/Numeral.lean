/-! # Numerals

Integers with an optional sign, limited to 64-bit words.  A numeral outside the range of a word is
no numeral at all.  Literals also have a base and may separate digits by underscores.
-/

namespace Lasso.Text

set_option autoImplicit false

def digit? (base : Nat) (c : Char) : Option Nat :=
  let n :=
    if c.isDigit then some (c.toNat - '0'.toNat)
    else if 'a' ≤ c && c ≤ 'z' then some (c.toNat - 'a'.toNat + 10)
    else if 'A' ≤ c && c ≤ 'Z' then some (c.toNat - 'A'.toNat + 10)
    else none
  n.filter (· < base)

def natural? (base : Nat) (cs : List Char) : Option Nat :=
  if cs.isEmpty then none
  else cs.foldlM (fun acc c => (acc * base + ·) <$> digit? base c) 0

/-- Splits off a leading sign; the result says whether the sign is a minus. -/
def splitSign : List Char → Bool × List Char
  | '+' :: cs => (false, cs)
  | '-' :: cs => (true, cs)
  | cs => (false, cs)

def signLimit : Nat := 9223372036854775808

def signed? (negative : Bool) (magnitude : Nat) : Option Int64 :=
  if negative then
    if magnitude ≤ signLimit then some (Int64.ofInt (-magnitude)) else none
  else
    if magnitude < signLimit then some (Int64.ofInt magnitude) else none

def integer? (cs : List Char) : Option Int64 :=
  let (negative, digits) := splitSign cs
  (natural? 10 digits).bind (signed? negative)

/-- Takes out underscores, each of which has to stand between two digits. -/
def joinDigits? (base : Nat) : Bool → List Char → Option (List Char)
  | _, [] => some []
  | afterDigit, '_' :: cs =>
    if afterDigit && cs.head?.any fun c => (digit? base c).isSome then joinDigits? base false cs
    else none
  | _, c :: cs => (c :: ·) <$> joinDigits? base (digit? base c).isSome cs

/-- A literal without a sign.  Its base is given by a leading `0b`, `0o` or `0x`, where the first
digit may follow an underscore, and is eight after any other leading zero. -/
def magnitude? : List Char → Option Nat
  | '0' :: p :: c :: cs =>
    match p.toLower with
    | 'b' => (joinDigits? 2 true (c :: cs)).bind (natural? 2)
    | 'o' => (joinDigits? 8 true (c :: cs)).bind (natural? 8)
    | 'x' => (joinDigits? 16 true (c :: cs)).bind (natural? 16)
    | _ => (joinDigits? 8 false ('0' :: p :: c :: cs)).bind (natural? 8)
  | '0' :: cs => (joinDigits? 8 false ('0' :: cs)).bind (natural? 8)
  | cs => (joinDigits? 10 false cs).bind (natural? 10)

def literal? (cs : List Char) : Option Int64 :=
  let (negative, digits) := splitSign cs
  (magnitude? digits).bind (signed? negative)

def boolean? : String → Option Bool
  | "1" | "t" | "T" | "true" | "TRUE" | "True" => some true
  | "0" | "f" | "F" | "false" | "FALSE" | "False" => some false
  | _ => none

end Lasso.Text
