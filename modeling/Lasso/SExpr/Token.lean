import Lasso.Text.Blank

/-! # Tokens

A text divides into parentheses and words.  A word is a longest run of characters that are
neither white space, nor a parenthesis, nor the start of a comment; a comment runs from a
semicolon to the end of its line.
-/

namespace Lasso

set_option autoImplicit false

inductive Token where
  | opening (position : Nat)
  | closing (position : Nat)
  | word (position : Nat) (letters : List Char)
  deriving DecidableEq, Repr

namespace Token

def start : Token → Nat
  | .opening p => p
  | .closing p => p
  | .word p _ => p

def stop : Token → Nat
  | .opening p => p + 1
  | .closing p => p + 1
  | .word p letters => p + letters.length

def isWordChar (c : Char) : Bool :=
  c ≠ '(' && c ≠ ')' && c ≠ ';' && !Text.isBlank c

/-- What the scanner is inside of.  The letters of a word are kept in reverse. -/
inductive Mode where
  | between
  | comment
  | word (position : Nat) (letters : List Char)

/-- The word that ends where a mode is left. -/
def Mode.finish : Mode → List Token
  | .word p letters => [.word p letters.reverse]
  | _ => []

def Mode.letter (position : Nat) (c : Char) : Mode → Mode
  | .word p letters => .word p (c :: letters)
  | _ => .word position [c]

def scan : Mode → Nat → List Char → List Token
  | mode, _, [] => mode.finish
  | .comment, p, c :: cs => scan (if c = '\n' then .between else .comment) (p + 1) cs
  | mode, p, c :: cs =>
    if c = '(' then mode.finish ++ .opening p :: scan .between (p + 1) cs
    else if c = ')' then mode.finish ++ .closing p :: scan .between (p + 1) cs
    else if c = ';' then mode.finish ++ scan .comment (p + 1) cs
    else if Text.isBlank c then mode.finish ++ scan .between (p + 1) cs
    else scan (mode.letter p c) (p + 1) cs

def ofText (cs : List Char) : List Token := scan .between 0 cs

end Token

end Lasso
