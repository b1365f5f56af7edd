import Lasso.Yaml.Scanner

/-! # Nodes of a YAML document

A document is a tree of scalars, sequences and mappings.  A node can be given a name, and stand in
other places by that name.  Only the first document of a text is read.
-/

namespace Lasso.Yaml

set_option autoImplicit false

inductive Node where
  /-- The tag is empty if none is given. -/
  | scalar (tag : String) (isPlain : Bool) (text : String)
  | sequence (items : List Node)
  | mapping (entries : List (Node × Node))
  /-- A node that stands in another place, too. -/
  | reference (name : String) (target : Node)
  deriving Inhabited

namespace Node

def empty : Node := .scalar "" true ""

end Node

structure Parser where
  tokens : List Token
  /-- The nodes with names, of which some may not be complete. -/
  anchors : List (String × Option Node) := []
  /-- What the handles of tags stand for. -/
  handles : List (String × String) := []

abbrev ParseM := StateT Parser Option

namespace Parser

def standardStem : String := "tag:yaml.org,2002:"

def standardHandles : List (String × String) := [("!", "!"), ("!!", standardStem)]

def peek : ParseM Token := do
  match (← get).tokens with
  | [] => return .stop
  | .invalid :: _ => failure
  | t :: _ => return t

def drop : ParseM Unit := modify fun p => { p with tokens := p.tokens.drop 1 }

def accept (t : Token) : ParseM Bool := do
  if (← peek) = t then
    drop
    return true
  return false

def resolveTag (handle suffix : String) : ParseM String := do
  if handle = "" then return suffix
  match (← get).handles.lookup handle with
  | some stem => return stem ++ suffix
  | none => failure

structure Properties where
  anchor? : Option String := none
  tag? : Option String := none

def properties : ParseM Properties := do
  match ← peek with
  | .anchor name =>
    drop
    match ← peek with
    | .tag handle suffix =>
      drop
      return ⟨name, ← resolveTag handle suffix⟩
    | _ => return { anchor? := name }
  | .tag handle suffix =>
    drop
    match ← peek with
    | .anchor name =>
      drop
      return ⟨name, ← resolveTag handle suffix⟩
    | _ => return { tag? := ← resolveTag handle suffix }
  | _ => return {}

def declare (anchor? : Option String) : ParseM Unit :=
  match anchor? with
  | none => return
  | some name => modify fun p => { p with anchors := (name, none) :: p.anchors }

def define (name : String) (node : Node) : List (String × Option Node) → List (String × Option Node)
  | [] => []
  | (other, n?) :: rest =>
    if other = name && n?.isNone then (name, some node) :: rest
    else (other, n?) :: define name node rest

def complete (anchor? : Option String) (node : Node) : ParseM Node := do
  if let some name := anchor? then
    modify fun p => { p with anchors := define name node p.anchors }
  return node

abbrev Follow := Token → Bool

def afterEntry (indentless : Bool) : Follow
  | .blockEntry | .blockEnd => true
  | .key | .value => indentless
  | _ => false

def afterKey : Follow
  | .key | .value | .blockEnd => true
  | _ => false

mutual

/-- A node.  In a block, items of a sequence need not be indented where a mapping is around it. -/
def node : Nat → (inBlock indentless : Bool) → ParseM Node
  | 0, _, _ => failure
  | fuel + 1, inBlock, indentless => do
    if let .reference name := ← peek then
      drop
      let some (some target) := (← get).anchors.lookup name | failure
      return .reference name target
    let ⟨anchor?, tag?⟩ ← properties
    declare anchor?
    match ← peek with
    | .scalar isPlain text =>
      drop
      complete anchor? (.scalar (tag?.getD "") isPlain text)
    | .flowSequence =>
      drop
      complete anchor? (.sequence (← flowItems fuel true))
    | .flowMapping =>
      drop
      complete anchor? (.mapping (← flowEntries fuel true))
    | .blockSequence =>
      if !inBlock then failure
      drop
      complete anchor? (.sequence (← blockItems fuel false))
    | .blockMapping =>
      if !inBlock then failure
      drop
      complete anchor? (.mapping (← blockEntries fuel))
    | .blockEntry =>
      if indentless then complete anchor? (.sequence (← blockItems fuel true))
      else bare anchor? tag?
    | _ => bare anchor? tag?

def bare (anchor? tag? : Option String) : ParseM Node :=
  if anchor?.isNone && tag?.isNone then failure
  else complete anchor? (.scalar (tag?.getD "") true "")

def optional : Nat → (missing : Follow) → (inBlock indentless : Bool) → ParseM Node
  | 0, _, _, _ => failure
  | fuel + 1, missing, inBlock, indentless => do
    if missing (← peek) then return .empty else node fuel inBlock indentless

def blockItems : Nat → (indentless : Bool) → ParseM (List Node)
  | 0, _ => failure
  | fuel + 1, indentless => do
    if ← accept .blockEntry then
      let item ← optional fuel (afterEntry indentless) true false
      return item :: (← blockItems fuel indentless)
    if indentless then return []
    if ← accept .blockEnd then return [] else failure

def blockEntries : Nat → ParseM (List (Node × Node))
  | 0 => failure
  | fuel + 1 => do
    if ← accept .key then
      let key ← optional fuel afterKey true true
      let value ←
        if ← accept .value then optional fuel afterKey true true else pure .empty
      return (key, value) :: (← blockEntries fuel)
    if ← accept .blockEnd then return [] else failure

/-- The items of a sequence in brackets, where an entry of a mapping is an item. -/
def flowItems : Nat → (first : Bool) → ParseM (List Node)
  | 0, _ => failure
  | fuel + 1, first => do
    if ← accept .flowSequenceEnd then return []
    if !first then
      if !(← accept .flowEntry) then failure
      if ← accept .flowSequenceEnd then return []
    if ← accept .key then
      let key ← flowKey fuel
      let value ←
        if ← accept .value then
          optional fuel (fun t => t = .flowEntry || t = .flowSequenceEnd) false false
        else pure .empty
      return .mapping [(key, value)] :: (← flowItems fuel false)
    let item ← node fuel false false
    return item :: (← flowItems fuel false)

/-- The key of an entry among items.  A token that stands in its place is passed. -/
def flowKey : Nat → ParseM Node
  | 0 => failure
  | fuel + 1 => do
    let t ← peek
    if t = .value || t = .flowEntry || t = .flowSequenceEnd then
      drop
      return .empty
    node fuel false false

def flowEntries : Nat → (first : Bool) → ParseM (List (Node × Node))
  | 0, _ => failure
  | fuel + 1, first => do
    if ← accept .flowMappingEnd then return []
    if !first then
      if !(← accept .flowEntry) then failure
      if ← accept .flowMappingEnd then return []
    if ← accept .key then
      let missing : Follow := fun t => t = .flowEntry || t = .flowMappingEnd
      let key ← optional fuel (fun t => t = .value || missing t) false false
      let value ← if ← accept .value then optional fuel missing false false else pure .empty
      return (key, value) :: (← flowEntries fuel false)
    let key ← node fuel false false
    return (key, .empty) :: (← flowEntries fuel false)

end

def directives (versioned : Bool) : Nat → ParseM Unit
  | 0 => failure
  | fuel + 1 => do
    match ← peek with
    | .version major minor =>
      if versioned || major ≠ 1 || minor ≠ 1 then failure
      drop
      directives true fuel
    | .handle name stem =>
      if ((← get).handles.lookup name).isSome then failure
      modify fun p => { p with handles := (name, stem) :: p.handles }
      drop
      directives versioned fuel
    | _ => modify fun p => { p with handles := p.handles ++ standardHandles }

/-- Whether nothing but a mark between documents, or the end, comes next. -/
def afterStart : Follow
  | .version _ _ | .handle _ _ | .documentStart | .documentEnd | .stop => true
  | _ => false

/-- The first document, if there is one.  What comes right after it must not be a mistake. -/
def document (fuel : Nat) : ParseM (Option Node) := do
  let first ← peek
  if first = .stop then return none
  directives false fuel
  let explicit ← accept .documentStart
  if !explicit && (first matches .version _ _ | .handle _ _) then failure
  let root ←
    if explicit && afterStart (← peek) then pure .empty else node fuel true false
  discard peek
  return root

end Parser

/-- The first document of a text, if the text is well-formed up to its end. -/
def document? (text : List Char) : Option (Option Node) :=
  let tokens := tokens text
  let fuel := 3 * tokens.length + 3
  ((Parser.document fuel).run { tokens }).map (·.1)

end Lasso.Yaml
