/-! # Spans

A span is a half-open interval of positions in a text, counted in characters.  Positions may
lie outside of the text.  They are words with a sign, and so are the distances between them.
-/

namespace Lasso

set_option autoImplicit false

structure Span where
  start : Int
  stop : Int
  deriving DecidableEq, Repr, Inhabited

/-- How far one position lies after another, which wraps around if it is too far for a word. -/
def distance (first last : Int) : Int := (last - first).bmod 18446744073709551616

namespace Span

def of? (start stop : Int) : Option Span :=
  if start ≤ stop then some ⟨start, stop⟩ else none

def single (position : Nat) : Span := ⟨position, position + 1⟩

def length (s : Span) : Int := distance s.start s.stop

end Span

structure SyntaxError where
  span : Span
  message : String
  deriving DecidableEq, Repr, Inhabited

end Lasso
