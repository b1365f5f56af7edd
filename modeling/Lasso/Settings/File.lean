import Lasso.Settings.Scalar
import Lasso.Yaml.Node

/-! # Settings files

A settings file is a mapping from names to values, written in YAML.  Values with parts have to be
well-formed, even though nothing can be made from them.
-/

namespace Lasso

set_option autoImplicit false

namespace SettingsFile

def shortTag (tag : String) : String :=
  if tag = "!" then ""
  else if tag.startsWith Yaml.Parser.standardStem then
    "!!" ++ (tag.drop Yaml.Parser.standardStem.length).toString
  else tag

def scalar? (tag : String) (isPlain : Bool) (text : String) : Option Value :=
  Scalar.value? (shortTag tag) isPlain text

/-- What keys are compared by: what they are, and how they are written. -/
def identity : Yaml.Node → Nat × String
  | .scalar _ _ text => (0, text)
  | .reference name _ => (1, name)
  | .sequence _ => (2, "")
  | .mapping _ => (3, "")

def isUnique (entries : List (Yaml.Node × Yaml.Node)) : Bool :=
  let keys := entries.map fun (key, _) => identity key
  keys.eraseDups.length = keys.length

/-- Whether the value of a key is a mapping whose entries are to be added. -/
def isMerge : Yaml.Node → Bool
  | .scalar tag isPlain text =>
    text = "<<" && ((tag = "" || tag = "!") && isPlain || shortTag tag = "!!merge")
  | _ => false

def name? : Yaml.Node → Option (Option String)
  | .scalar tag isPlain text => do
    match ← scalar? tag isPlain text with
    | .nothing => return none
    | .text s => return some s
    | _ => return some text
  | .reference _ target => name? target
  | _ => none

mutual

def value? : Yaml.Node → Option Value
  | .scalar tag isPlain text => scalar? tag isPlain text
  | .reference _ target => value? target
  | .sequence items => (items? items).map fun _ => .collection
  | .mapping entries => (entries? (isUnique entries) entries).map fun _ => .collection

def items? : List Yaml.Node → Option (List Value)
  | [] => some []
  | n :: ns => do return (← value? n) :: (← items? ns)

/-- The values of the entries of a mapping by name, after those that are to be added. -/
def entries? (unique : Bool) : List (Yaml.Node × Yaml.Node) → Option (Layer × Layer)
  | [] => if unique then some ([], []) else none
  | (key, value) :: rest => do
    let (added, own) ← entries? unique rest
    if isMerge key then return (added ++ (← additions? value), own)
    let name? ← name? key
    let value ← value? value
    return (added, name?.toList.map (·, value) ++ own)

def additions? : Yaml.Node → Option Layer
  | .mapping entries => do
    let (added, own) ← entries? (isUnique entries) entries
    return added ++ own
  | .reference _ (.mapping entries) => do
    let (added, own) ← entries? (isUnique entries) entries
    return added ++ own
  | .sequence items => additionsOf? items
  | _ => none

def additionsOf? : List Yaml.Node → Option Layer
  | [] => some []
  | .sequence _ :: _ => none
  | n :: ns => do return (← additionsOf? ns) ++ (← additions? n)

end

def layer? : Yaml.Node → Option Layer
  | .mapping entries => additions? (.mapping entries)
  | .scalar tag isPlain text =>
    if scalar? tag isPlain text = some .nothing then some [] else none
  | _ => none

def read? (text : String) : Option Layer := do
  match ← Yaml.document? text.toList with
  | none => return []
  | some root => layer? root

end SettingsFile

end Lasso
