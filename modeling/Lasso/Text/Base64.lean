import Lasso.Text.Utf8

/-! # Bytes written with 64 digits

Four digits stand for three bytes.  Digits that are missing at the end are made up for by signs of
equality, and line breaks do not count.
-/

namespace Lasso.Text.Base64

set_option autoImplicit false

def digits : List Char :=
  "ABCDEFGHIJKLMNOPQRSTUVWXYZabcdefghijklmnopqrstuvwxyz0123456789+/".toList

def value? (cs : List Char) : Option Nat :=
  cs.foldlM (fun acc c => (acc * 64 + ·) <$> digits.idxOf? c) 0

def bytes? : List Char → Option (List UInt8)
  | [] => some []
  | [a, b, '=', '='] => (value? [a, b]).map fun n => [(n / 16).toUInt8]
  | [a, b, c, '='] => (value? [a, b, c]).map fun n => [(n / 1024).toUInt8, (n / 4).toUInt8]
  | a :: b :: c :: d :: cs => do
    let n ← value? [a, b, c, d]
    return (n / 65536).toUInt8 :: (n / 256).toUInt8 :: n.toUInt8 :: (← bytes? cs)
  | _ => none

def decode? (cs : List Char) : Option (List Char) :=
  (bytes? (cs.filter fun c => c ≠ '\n' && c ≠ '\r')).map decodeUtf8

end Lasso.Text.Base64
