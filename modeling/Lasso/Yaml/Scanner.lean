import Lasso.Yaml.Token

/-! # Scanning a YAML text

Whether something is a key is found out only at the colon behind it, which has to be on the same
line and not too far off.  The token in front of a key is then put in its place, together with the
start of a mapping if the key is indented more than what surrounds it.
-/

namespace Lasso.Yaml

set_option autoImplicit false

/-- Something that may turn out to be a key: the number of tokens in front of it, and its place.  It
has to be a key if it is indented just like the block around it. -/
structure Candidate where
  index : Nat
  line : Nat
  column : Nat
  required : Bool

structure Scanner where
  cursor : Cursor
  tokens : Array Token := #[]
  /-- The indentation of the innermost block, or a negative number outside of all blocks. -/
  indent : Int := -1
  /-- The indentations around it. -/
  indents : List Int := []
  candidate? : Option Candidate := none
  /-- The candidates around the open brackets, from the inside out. -/
  outer : List (Option Candidate) := []
  /-- Whether a key may start here. -/
  keyAllowed : Bool := true

namespace Scanner

def keyLimit : Nat := 1024

def inFlow (s : Scanner) : Bool := !s.outer.isEmpty

def isOpen (s : Scanner) (c : Candidate) : Bool :=
  c.line = s.cursor.line && s.cursor.column ≤ c.column + keyLimit

def emit (s : Scanner) (t : Token) : Scanner := { s with tokens := s.tokens.push t }

def emitTo (s : Scanner) (t : Token) (rest : List Char) : Scanner :=
  { s.emit t with cursor := s.cursor.skipTo rest }

def emitNext (s : Scanner) (t : Token) : Scanner := { s.emit t with cursor := s.cursor.next }

def forget? (s : Scanner) : Option Scanner :=
  if s.candidate?.any (·.required) then none else some { s with candidate? := none }

def consider? (s : Scanner) : Option Scanner := do
  if !s.keyAllowed then return s
  let required := !s.inFlow && s.indent = s.cursor.column
  let candidate : Candidate := ⟨s.tokens.size, s.cursor.line, s.cursor.column, required⟩
  return { ← s.forget? with candidate? := some candidate }

structure Space where
  column : Nat
  /-- Whether a key may start here. -/
  keyAllowed : Bool
  /-- Whether a comment here would belong to the token in front of it. -/
  ofToken : Bool
  inComment : Bool := false
  /-- Whether the last comment belongs to no token. -/
  afterComment : Bool := false

namespace Space

def newLine (s : Space) (flow : Bool) : Space :=
  { s with column := 0, keyAllowed := s.keyAllowed || !flow, ofToken := false, inComment := false }

def comment (s : Space) : Space := { s with inComment := true, afterComment := !s.ofToken }

/-- Whether a character is passed.  A tab is no blank where a key may start, unless it stands
between comments. -/
def passes (s : Space) (flow : Bool) (c : Char) (rest : List Char) : Bool :=
  s.inComment || c = ' ' || (s.column = 0 && c = byteOrderMark) ||
    (c = '\t' && (flow || !s.keyAllowed || (s.afterComment &&
      (rest.dropWhile fun c => isBlank c || isBreak c).head? = some '#')))

def pass (flow : Bool) (s : Space) : List Char → List Char × Bool
  | [] => ([], s.keyAllowed)
  | c :: cs =>
    if isBreak c then pass flow (s.newLine flow) cs
    else if s.passes flow c cs then pass flow { s with column := s.column + 1 } cs
    else if c = '#' then pass flow s.comment cs
    else (c :: cs, s.keyAllowed)

end Space

def skipSpace (s : Scanner) : Scanner :=
  let ofToken := s.cursor.column ≠ 0 && s.tokens.back?.any (· ≠ .blockEntry)
  let space : Space := { column := s.cursor.column, keyAllowed := s.keyAllowed, ofToken }
  let (rest, keyAllowed) := space.pass s.inFlow s.cursor.rest
  { s with cursor := s.cursor.skipTo rest, keyAllowed }

def leave (column : Int) (tokens : Array Token) : Int → List Int → Array Token × Int × List Int
  | indent, [] => (tokens, indent, [])
  | indent, outer :: indents =>
    if indent > column then leave column (tokens.push .blockEnd) outer indents
    else (tokens, indent, outer :: indents)

def leaveTo (s : Scanner) (column : Int) : Scanner :=
  if s.inFlow then s
  else
    let (tokens, indent, indents) := leave column s.tokens s.indent s.indents
    { s with tokens, indent, indents }

/-- Enters a block, if a column is indented more than the one around it. -/
def enter (s : Scanner) (column : Nat) (index : Nat) (start : Token) : Scanner :=
  if s.inFlow || s.indent ≥ column then s
  else
    { s with
      tokens := s.tokens.insertIdxIfInBounds index start
      indent := column
      indents := s.indent :: s.indents }

def enterHere (s : Scanner) (start : Token) : Scanner :=
  s.enter s.cursor.column s.tokens.size start

/-- Ends all blocks, in front of a mark between documents or a directive. -/
def outside? (s : Scanner) : Option Scanner := do
  return { ← (s.leaveTo (-1)).forget? with keyAllowed := false }

def openFlow? (s : Scanner) (t : Token) : Option Scanner := do
  let s ← s.consider?
  let outer := s.candidate? :: s.outer
  return { s.emitNext t with candidate? := none, outer, keyAllowed := true }

def closeFlow? (s : Scanner) (t : Token) : Option Scanner := do
  let s := { (← s.forget?).emitNext t with keyAllowed := false }
  match s.outer with
  | [] => return s
  | candidate? :: outer => return { s with candidate?, outer }

def comma? (s : Scanner) : Option Scanner := do
  return { (← s.forget?).emitNext .flowEntry with keyAllowed := true }

def entry? (s : Scanner) : Option Scanner := do
  if !s.inFlow && !s.keyAllowed then none
  let s ← (s.enterHere .blockSequence).forget?
  return { s.emitNext .blockEntry with keyAllowed := true }

def key? (s : Scanner) : Option Scanner := do
  if !s.inFlow && !s.keyAllowed then none
  let s ← (s.enterHere .blockMapping).forget?
  return { s.emitNext .key with keyAllowed := !s.inFlow }

def value? (s : Scanner) : Option Scanner :=
  match s.candidate?.filter s.isOpen with
  | some c =>
    let s := { s with tokens := s.tokens.insertIdxIfInBounds c.index .key, candidate? := none }
    some { (s.enter c.column c.index .blockMapping).emitNext .value with keyAllowed := false }
  | none =>
    if s.candidate?.any (·.required) then none
    else if s.inFlow then some { s.emitNext .value with keyAllowed := false }
    else if !s.keyAllowed then none
    else some ((s.enterHere .blockMapping).emitNext .value)

def part? (s : Scanner) (r : Option (Token × List Char)) : Option Scanner := do
  let (t, rest) ← r
  return { (← s.consider?).emitTo t rest with keyAllowed := false }

def scalar (isPlain : Bool) (text rest : List Char) : Token × List Char :=
  (.scalar isPlain (String.ofList text), rest)

def block? (s : Scanner) (folded : Bool) (cs : List Char) : Option Scanner := do
  let (text, rest) ← block folded s.indent cs
  let (t, rest) := scalar false text rest
  return { (← s.forget?).emitTo t rest with keyAllowed := true }

def plain? (s : Scanner) : Option Scanner := do
  let (text, gap, rest) ←
    plain s.inFlow (s.indent + 1).toNat s.cursor.column {} s.cursor.rest
  let s ← s.part? (some (scalar true text rest))
  return { s with keyAllowed := s.keyAllowed || gap.broken }

def step (s : Scanner) : Option Scanner :=
  match s.cursor.rest with
  | [] => s.outside?.map (·.emit .stop)
  | c :: cs =>
    if s.cursor.column = 0 && c = '%' then do
      let (t, rest) ← Token.directive? cs
      return (← s.outside?).emitTo t rest
    else if atMark s.cursor.column (c :: cs) then
      let t := if c = '-' then .documentStart else .documentEnd
      s.outside?.map (·.emitTo t (cs.drop 2))
    else if c = '[' then s.openFlow? .flowSequence
    else if c = '\x7b' then s.openFlow? .flowMapping
    else if c = ']' then s.closeFlow? .flowSequenceEnd
    else if c = '\x7d' then s.closeFlow? .flowMappingEnd
    else if c = ',' then s.comma?
    else if c = '-' && atSpace cs then s.entry?
    else if c = '?' && (s.inFlow || atSpace cs) then s.key?
    else if c = ':' && (s.inFlow || atSpace cs) then s.value?
    else if c = '*' then s.part? ((Token.name? cs).map fun (n, rest) => (.reference n, rest))
    else if c = '&' then s.part? ((Token.name? cs).map fun (n, rest) => (.anchor n, rest))
    else if c = '!' then s.part? (Token.tag? cs)
    else if (c = '|' || c = '>') && !s.inFlow then s.block? (c = '>') cs
    else if c = '\'' then
      s.part? ((singleQuoted false {} cs).map fun (text, rest) => scalar false text rest)
    else if c = '"' then
      s.part? ((doubleQuoted false {} cs).map fun (text, rest) => scalar false text rest)
    else if startsPlain s.inFlow (c :: cs) then s.plain?
    else none

/-- The tokens in front of a mistake.  The last two are not reached, as they are only looked at
together with what comes after them, and neither is a candidate. -/
def cut (s : Scanner) : List Token :=
  let first := (s.candidate? :: s.outer).foldl
    (fun n c => ((c.filter s.isOpen).map fun c => min n c.index).getD n) (s.tokens.size - 2)
  s.tokens.toList.take first ++ [.invalid]

/-- Takes steps until the text ends, or a mistake. -/
def run : Nat → Scanner → List Token
  | 0, s => s.cut
  | fuel + 1, s =>
    let ready := s.skipSpace
    match (ready.leaveTo ready.cursor.column).step with
    | none => s.cut
    | some s => if s.tokens.back? = some .stop then s.tokens.toList else run fuel s

end Scanner

def tokens (text : List Char) : List Token :=
  if !text.all isAllowed then [.invalid]
  else
    let cs := unify (if text.head? = some byteOrderMark then text.drop 1 else text)
    Scanner.run (cs.length + 1) { cursor := { rest := cs } }

end Lasso.Yaml
