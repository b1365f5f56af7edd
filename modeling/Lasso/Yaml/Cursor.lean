/-! # Positions in a YAML text

Line breaks are made alike before a text is read, apart from the two separators that Unicode has
for lines and paragraphs.  A cursor knows what is left of a text, and where that starts.
-/

namespace Lasso.Yaml

set_option autoImplicit false

def isBlank (c : Char) : Bool := c = ' ' || c = '\t'

def isBreak (c : Char) : Bool := c = '\n' || c = '\u2028' || c = '\u2029'

def byteOrderMark : Char := '\ufeff'

def isWord (c : Char) : Bool := c.isAlphanum || c = '_' || c = '-'

def isAllowed (c : Char) : Bool :=
  let n := c.toNat
  n = 0x09 || n = 0x0A || n = 0x0D || (0x20 ≤ n && n ≤ 0x7E) || n = 0x85 ||
    (0xA0 ≤ n && n ≤ 0xD7FF) || (0xE000 ≤ n && n ≤ 0xFFFD) || 0x10000 ≤ n

def unify : List Char → List Char
  | [] => []
  | '\r' :: '\n' :: cs => '\n' :: unify cs
  | c :: cs => (if c = '\r' || c = '\u0085' then '\n' else c) :: unify cs

def atSpace (cs : List Char) : Bool := cs.head?.all fun c => isBlank c || isBreak c

def atMark (column : Nat) (cs : List Char) : Bool :=
  column = 0 && (cs.take 3 = ['-', '-', '-'] || cs.take 3 = ['.', '.', '.']) && atSpace (cs.drop 3)

/-- What follows the rest of a line, on which nothing but a comment is left. -/
def endOfLine? (cs : List Char) : Option (List Char) :=
  match cs.dropWhile isBlank with
  | [] => some []
  | c :: cs =>
    if c = '#' then some ((cs.dropWhile (!isBreak ·)).drop 1)
    else if isBreak c then some cs
    else none

structure Cursor where
  rest : List Char
  line : Nat := 0
  column : Nat := 0

namespace Cursor

def next (c : Cursor) : Cursor :=
  match c.rest with
  | [] => c
  | x :: rest => if isBreak x then ⟨rest, c.line + 1, 0⟩ else ⟨rest, c.line, c.column + 1⟩

def skip : Nat → Cursor → Cursor
  | 0, c => c
  | count + 1, c => skip count c.next

def skipTo (c : Cursor) (rest : List Char) : Cursor := c.skip (c.rest.length - rest.length)

end Cursor

end Lasso.Yaml
