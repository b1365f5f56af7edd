import Lasso.Text.Numeral
import Lasso.Yaml.Cursor

/-! # Scalars of a YAML text

A scalar is plain, in quotes, or a block of lines beneath an indicator.  A line break inside of a
plain or quoted scalar is folded to a blank, and so are those inside of a folded block.
-/

namespace Lasso.Yaml

set_option autoImplicit false

/-- Blanks and line breaks, of which it depends on what follows whether they count. -/
structure Gap where
  /-- Blanks, unless there is a line break. -/
  blanks : List Char := []
  broken : Bool := false
  /-- The first line break, unless it is escaped. -/
  first : List Char := []
  /-- The other line breaks. -/
  others : List Char := []

namespace Gap

def isEmpty (g : Gap) : Bool := !g.broken && g.blanks.isEmpty

def push (g : Gap) (c : Char) : Gap :=
  if isBreak c then
    if g.broken then { g with others := g.others ++ [c] } else { broken := true, first := [c] }
  else if g.broken then g
  else { g with blanks := g.blanks ++ [c] }

/-- What a gap stands for: the first of several line breaks does not count, and a single one counts
as a blank. -/
def text (g : Gap) : List Char :=
  if !g.broken then g.blanks
  else if g.first ≠ ['\n'] then g.first ++ g.others
  else if g.others.isEmpty then [' ']
  else g.others

end Gap

def prepend {α : Type} (cs : List Char) (r : Option (List Char × α)) : Option (List Char × α) :=
  r.map fun (text, rest) => (cs ++ text, rest)

def startsPlain (flow : Bool) : List Char → Bool
  | [] => false
  | c :: cs =>
    if c = '-' then !cs.head?.any isBlank
    else if c = '?' || c = ':' then !flow && !atSpace cs
    else !isBlank c && !isBreak c && !(",[]\x7b\x7d#&*!|>'\"%@`".toList.contains c)

/-- Whether a character ends a plain scalar, whatever is in front of it. -/
def endsPlain (flow : Bool) (c : Char) (cs : List Char) : Bool :=
  (c = ':' && atSpace cs) || (flow && ",?[]\x7b\x7d".toList.contains c)

def plain (flow : Bool) (indent : Nat) (column : Nat) (gap : Gap) :
    List Char → Option (List Char × Gap × List Char)
  | [] => some ([], gap, [])
  | c :: cs =>
    if isBreak c then plain flow indent 0 (gap.push c) cs
    else if isBlank c then
      if gap.broken && column < indent && c = '\t' then none
      else plain flow indent (column + 1) (gap.push c) cs
    else
      let detached := !gap.isEmpty &&
        (c = '#' || atMark column (c :: cs) || (!flow && column < indent))
      if detached || endsPlain flow c cs then some ([], gap, c :: cs)
      else prepend (gap.text ++ [c]) (plain flow indent (column + 1) {} cs)

/-- A text up to a single quote, where two quotes stand for one. -/
def singleQuoted (lineStart : Bool) (gap : Gap) : List Char → Option (List Char × List Char)
  | [] => none
  | '\'' :: '\'' :: cs => prepend (gap.text ++ ['\'']) (singleQuoted false {} cs)
  | '\'' :: cs => some (gap.text, cs)
  | c :: cs =>
    if isBreak c then singleQuoted true (gap.push c) cs
    else if isBlank c then singleQuoted false (gap.push c) cs
    else if lineStart && atMark 0 (c :: cs) then none
    else prepend (gap.text ++ [c]) (singleQuoted false {} cs)

def escaped? : Char → Option Char
  | '0' => some '\x00'
  | 'a' => some '\x07'
  | 'b' => some '\x08'
  | 't' | '\t' => some '\t'
  | 'n' => some '\n'
  | 'v' => some '\x0b'
  | 'f' => some '\x0c'
  | 'r' => some '\r'
  | 'e' => some '\x1b'
  | ' ' => some ' '
  | '"' => some '"'
  | '\'' => some '\''
  | '\\' => some '\\'
  | 'N' => some '\x85'
  | '_' => some '\xa0'
  | 'L' => some '\u2028'
  | 'P' => some '\u2029'
  | _ => none

def coded? (digits : List Char) : Option Char :=
  (Text.natural? 16 digits).bind fun n => if n.isValidChar then some (Char.ofNat n) else none

/-- A text up to a double quote, with escapes.  Line breaks can be escaped, too. -/
def doubleQuoted (lineStart : Bool) (gap : Gap) : List Char → Option (List Char × List Char)
  | [] => none
  | '"' :: cs => some (gap.text, cs)
  | '\\' :: 'x' :: a :: b :: cs => escape gap (coded? [a, b]) (doubleQuoted false {} cs)
  | '\\' :: 'u' :: a :: b :: c :: d :: cs =>
    escape gap (coded? [a, b, c, d]) (doubleQuoted false {} cs)
  | '\\' :: 'U' :: a :: b :: c :: d :: e :: f :: g :: h :: cs =>
    escape gap (coded? [a, b, c, d, e, f, g, h]) (doubleQuoted false {} cs)
  | '\\' :: c :: cs =>
    if isBreak c then prepend gap.text (doubleQuoted true { broken := true } cs)
    else escape gap (escaped? c) (doubleQuoted false {} cs)
  | c :: cs =>
    if isBreak c then doubleQuoted true (gap.push c) cs
    else if isBlank c then doubleQuoted false (gap.push c) cs
    else if c = '\\' || (lineStart && atMark 0 (c :: cs)) then none
    else prepend (gap.text ++ [c]) (doubleQuoted false {} cs)
where
  /-- Puts a gap and a character in front of the text. -/
  escape (gap : Gap) (c : Option Char) (r : Option (List Char × List Char)) :
      Option (List Char × List Char) := do prepend (gap.text ++ [← c]) r

inductive Chomp where
  /-- One is kept. -/
  | clip
  | strip
  | keep
  deriving DecidableEq

def chomp : List Char → Chomp × List Char
  | '+' :: cs => (.keep, cs)
  | '-' :: cs => (.strip, cs)
  | cs => (.clip, cs)

def indentation? : List Char → Option (Nat × List Char)
  | c :: cs =>
    if c = '0' then none
    else if c.isDigit then some (c.toNat - '0'.toNat, cs)
    else some (0, c :: cs)
  | [] => some (0, [])

def blockHeader? (cs : List Char) : Option (Chomp × Nat × List Char) := do
  let (before, cs) := chomp cs
  let (indent, cs) ← indentation? cs
  let (chomp, cs) := if before = .clip then chomp cs else (before, cs)
  return (chomp, indent, ← endOfLine? cs)

/-- The greatest indentation of the lines up to the first one with text.  Tabs do not indent. -/
def leadingIndent? (column greatest : Nat) : List Char → Option Nat
  | [] => some (max column greatest)
  | c :: cs =>
    if c = ' ' then leadingIndent? (column + 1) greatest cs
    else if c = '\t' then none
    else if isBreak c then leadingIndent? 0 (max column greatest) cs
    else some (max column greatest)

structure BlockState where
  /-- A line with text is being read, and not the blanks and line breaks in front of one. -/
  inLine : Bool := false
  column : Nat := 0
  /-- The line break behind the last line with text. -/
  last : List Char := []
  /-- The line breaks after that. -/
  others : List Char := []
  /-- The last line starts with a blank. -/
  indented : Bool := false

def BlockState.joint (s : BlockState) (folded : Bool) (c : Char) : List Char :=
  if folded && !s.indented && !isBlank c && s.last = ['\n'] then
    if s.others.isEmpty then [' '] else s.others
  else s.last ++ s.others

/-- The text of a block with a given indentation, how it was left, and what is left. -/
def blockText (folded : Bool) (indent : Nat) (s : BlockState) :
    List Char → Option (List Char × BlockState × List Char)
  | [] => some ([], s, [])
  | c :: cs =>
    if s.inLine then
      if isBreak c then blockText folded indent { indented := s.indented, last := [c] } cs
      else prepend [c] (blockText folded indent s cs)
    else if c = ' ' && s.column < indent then
      blockText folded indent { s with column := s.column + 1 } cs
    else if c = '\t' && s.column < indent then none
    else if isBreak c then
      blockText folded indent { s with column := 0, others := s.others ++ [c] } cs
    else if s.column = indent then
      prepend (s.joint folded c ++ [c])
        (blockText folded indent { inLine := true, indented := isBlank c } cs)
    else some ([], s, c :: cs)

/-- A block after its indicator, inside of something with a given indentation. -/
def block (folded : Bool) (outer : Int) (cs : List Char) : Option (List Char × List Char) := do
  let (chomp, more, cs) ← blockHeader? cs
  let indent ←
    if more > 0 then pure ((max outer 0).toNat + more)
    else (leadingIndent? 0 0 cs).map fun n => max n (max (outer + 1) 1).toNat
  let (text, s, rest) ← blockText folded indent {} cs
  let tail := match chomp with
    | .strip => []
    | .clip => s.last
    | .keep => s.last ++ s.others
  return (text ++ tail, rest)

end Lasso.Yaml
