/-! # Escape sequences

A terminal changes the look of text at an escape character followed by numbered attributes.
-/

namespace Lasso

set_option autoImplicit false

structure Escape where
  codes : List UInt64
  deriving DecidableEq, Repr

namespace Escape

def plain : Escape := ⟨[]⟩

def reset : Escape := ⟨[0]⟩

def bold : Escape := ⟨[1]⟩

def foreground (e : Escape) (colour : UInt64) : Escape := ⟨e.codes ++ [colour + 30]⟩

def background (e : Escape) (colour : UInt64) : Escape := ⟨e.codes ++ [colour + 40]⟩

def red : UInt64 := 1

def green : UInt64 := 2

def render (e : Escape) : String :=
  match e.codes with
  | [] => "\x1bm"
  | codes => "\x1b[" ++ ";".intercalate (codes.map fun c => toString c.toNat) ++ "m"

end Escape

/-- The number of columns taken for a terminal whose size is not known. -/
def standardColumns : Nat := 80

end Lasso
