/-! # Bytes as characters

Decoding never fails: a byte that does not begin a well-formed sequence stands for one
replacement character, and decoding goes on at the next byte.
-/

namespace Lasso.Text

set_option autoImplicit false

/-- The character put in place of a byte that begins no well-formed sequence. -/
def replacement : Char := Char.ofNat 0xFFFD

def continuation? (b : UInt8) : Option Nat :=
  if 0x80 ≤ b && b < 0xC0 then some (b.toNat - 0x80) else none

def continueWith : Nat → Nat → List UInt8 → Option Nat
  | 0, acc, _ => some acc
  | _ + 1, _, [] => none
  | count + 1, acc, b :: bs => do continueWith count (acc * 64 + (← continuation? b)) bs

/-- A code point needs the shortest form, at least `least`, and must not be a surrogate. -/
def scalar? (least code : Nat) : Option Char :=
  if least ≤ code && code.isValidChar then some (Char.ofNat code) else none

/-- The character that a byte and the bytes after it begin with, and the number of bytes after
the first that belong to it. -/
def decodeOne? (b : UInt8) (rest : List UInt8) : Option (Char × Nat) :=
  let n := b.toNat
  if n < 0x80 then some (Char.ofNat n, 0)
  else if 0xC0 ≤ n && n < 0xE0 then do
    return (← scalar? 0x80 (← continueWith 1 (n - 0xC0) rest), 1)
  else if 0xE0 ≤ n && n < 0xF0 then do
    return (← scalar? 0x800 (← continueWith 2 (n - 0xE0) rest), 2)
  else if 0xF0 ≤ n && n < 0xF8 then do
    return (← scalar? 0x10000 (← continueWith 3 (n - 0xF0) rest), 3)
  else none

def decodeUtf8 : List UInt8 → List Char
  | [] => []
  | b :: rest =>
    match decodeOne? b rest with
    | some (c, more) => c :: decodeUtf8 (rest.drop more)
    | none => replacement :: decodeUtf8 rest
termination_by bytes => bytes.length

end Lasso.Text
