import Lasso.Yaml.Scalar

/-! # Tokens of a YAML text

Some tokens stand for no character: those that start and end what is told by its indentation, and
the ones in front of a key.
-/

namespace Lasso.Yaml

set_option autoImplicit false

inductive Token where
  | version (major minor : Nat)
  /-- What a handle of tags stands for. -/
  | handle (name stem : String)
  | documentStart
  | documentEnd
  | blockSequence
  | blockMapping
  | blockEnd
  | flowSequence
  | flowSequenceEnd
  | flowMapping
  | flowMappingEnd
  /-- A comma. -/
  | flowEntry
  /-- A hyphen. -/
  | blockEntry
  | key
  | value
  | reference (name : String)
  | anchor (name : String)
  | tag (handle suffix : String)
  | scalar (isPlain : Bool) (text : String)
  /-- The end of the text. -/
  | stop
  /-- A mistake, after which nothing is read. -/
  | invalid
  deriving DecidableEq

namespace Token

def endsName (cs : List Char) : Bool :=
  atSpace cs || cs.head?.any fun c => "?:,]\x7d%@`".toList.contains c

def name? (cs : List Char) : Option (String × List Char) :=
  let (name, rest) := cs.span isWord
  if name.isEmpty || !endsName rest then none else some (String.ofList name, rest)

/-- A run of the characters of tags, where characters can be given by their codes. -/
def tagText : List Char → Option (List Char × List Char)
  | '%' :: a :: b :: cs => do
    let c ← (coded? [a, b]).filter (·.toNat < 128)
    prepend [c] (tagText cs)
  | c :: cs =>
    if isWord c || ";/?:@&=+$,.!~*'()[]".toList.contains c then prepend [c] (tagText cs)
    else if c = '%' then none
    else some ([], c :: cs)
  | [] => some ([], [])

def someTagText (cs : List Char) : Option (String × List Char) := do
  let (text, rest) ← tagText cs
  if text.isEmpty then none else return (String.ofList text, rest)

/-- A tag after its mark, and what is left.  It is given in full, with a handle that has a name, or
with the handle that has none. -/
def tag? (cs : List Char) : Option (Token × List Char) := do
  let (t, rest) ← match cs with
    | '<' :: cs => do
      let (text, rest) ← someTagText cs
      if rest.head? = some '>' then some (tag "" text, rest.drop 1) else none
    | cs =>
      let (name, rest) := cs.span isWord
      match rest with
      | '!' :: rest => do
        let (text, rest) ← someTagText rest
        return (tag ("!" ++ String.ofList name ++ "!") text, rest)
      | rest => do
        let (text, rest) ← tagText rest
        if name.isEmpty && text.isEmpty then return (tag "" "!", rest)
        else return (tag "!" (String.ofList (name ++ text)), rest)
  if atSpace rest then return (t, rest) else none

def versionNumber? (cs : List Char) : Option (Nat × List Char) := do
  let (digits, rest) := cs.span Char.isDigit
  if digits.length > 2 then none else return (← Text.natural? 10 digits, rest)

def version? (cs : List Char) : Option (Token × List Char) := do
  let (major, rest) ← versionNumber? (cs.dropWhile isBlank)
  if rest.head? ≠ some '.' then none
  let (minor, rest) ← versionNumber? (rest.drop 1)
  return (version major minor, rest)

def handle? (cs : List Char) : Option (Token × List Char) := do
  let '!' :: cs := cs.dropWhile isBlank | none
  let (name, rest) := cs.span isWord
  let (name, rest) ← match rest with
    | '!' :: rest => some ("!" ++ String.ofList name ++ "!", rest)
    | rest => if name.isEmpty then some ("!", rest) else none
  if !rest.head?.any isBlank then none
  let (stem, rest) ← someTagText (rest.dropWhile isBlank)
  if atSpace rest then return (handle name stem, rest) else none

def directive? (cs : List Char) : Option (Token × List Char) := do
  let (name, rest) := cs.span isWord
  if !atSpace rest then none
  let (t, rest) ← match String.ofList name with
    | "YAML" => version? rest
    | "TAG" => handle? rest
    | _ => none
  return (t, ← endOfLine? rest)

end Token

end Lasso.Yaml
