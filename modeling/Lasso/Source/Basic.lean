import Lasso.Source.Span

/-! # Sources

A source is a named text.  A position is reported by the line it lies on, with the part of the
span on that line marked beneath it.
-/

namespace Lasso

set_option autoImplicit false

structure Source where
  name : String
  text : List Char

/-- A line without its line break, the position of its first character, and its number
counted from one. -/
structure Line where
  text : List Char
  start : Nat
  number : Nat

namespace Line

def length (l : Line) : Nat := l.text.length

def cut (cs : List Char) (start stop number : Nat) : Line :=
  { text := (cs.drop start).take (stop - start), start, number }

end Line

namespace Source

def ofString (name text : String) : Source := ⟨name, text.toList⟩

def endOfLine (index : Nat) : List Char → Nat
  | [] => index
  | c :: rest => if c = '\n' then index else endOfLine (index + 1) rest

/-- The scan for the line of a position, from an index on with what is left of the text there.
The start and the number are those of the line the index is on. -/
def scanLine (cs : List Char) (position : Int) (index start number : Nat) : List Char → Line
  | [] => Line.cut cs start cs.length number
  | c :: rest =>
    if index = position then Line.cut cs start (endOfLine index (c :: rest)) number
    else if c = '\n' then scanLine cs position (index + 1) (index + 1) (number + 1) rest
    else scanLine cs position (index + 1) start number rest

/-- The line on which a position lies.  A position outside of the text belongs to the last
line. -/
def lineAt (s : Source) (position : Int) : Line := scanLine s.text position 0 0 1 s.text

def describe (s : Source) (e : SyntaxError) : String :=
  s.name ++ ":" ++ toString (s.lineAt e.span.start).number ++ ": " ++ e.message

def indent (span : Span) (line : Line) : Nat := (distance line.start span.start).toNat

/-- The number of marks: one for each character of the span on the line, and at least one. -/
def marks (span : Span) (line : Line) : Nat :=
  (max 1 (min span.length (line.length - indent span line))).toNat

def widest : Nat := 281474976710656

def tooWide (s : Source) (e : SyntaxError) : Bool :=
  widest < indent e.span (s.lineAt e.span.start)

/-- The description, the line itself, and a row of marks beneath it. -/
def render (s : Source) (e : SyntaxError) : String :=
  let line := s.lineAt e.span.start
  s.describe e ++ "\n" ++ String.ofList line.text ++ "\n" ++
    String.ofList (List.replicate (indent e.span line) ' ') ++
    String.ofList (List.replicate (marks e.span line) '^') ++ "\n"

end Source

end Lasso
