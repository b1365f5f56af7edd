/-! # White space

The characters that separate words in every text this library reads.  Trimming and the
division of a text into words use the same class.
-/

namespace Lasso.Text

set_option autoImplicit false

/-- The code points with the white space property, control characters included. -/
def isBlank (c : Char) : Bool :=
  let n := c.toNat
  (0x09 ≤ n && n ≤ 0x0D) || n == 0x20 || n == 0x85 || n == 0xA0 || n == 0x1680 ||
    (0x2000 ≤ n && n ≤ 0x200A) || n == 0x2028 || n == 0x2029 || n == 0x202F || n == 0x205F ||
    n == 0x3000

def trim (cs : List Char) : List Char :=
  ((cs.dropWhile isBlank).reverse.dropWhile isBlank).reverse

/-- Replaces the capital letters whose small letter is in the basic Latin alphabet, which are two
more than the capitals of that alphabet.  Other characters stay. -/
def lower (cs : List Char) : List Char :=
  cs.map fun c => if c = '\u0130' then 'i' else if c = '\u212a' then 'k' else c.toLower

end Lasso.Text
