import Lasso.Settings.Value

/-! # Flags

Arguments that start with a hyphen give settings.  A flag has a name, and possibly a letter for
short; letters can be written together.  The value of a flag that is not a switch may stand in the
same argument or be the next argument.  Two hyphens end the flags.
-/

namespace Lasso

set_option autoImplicit false

inductive FlagKind where
  | switch
  | number
  | duration
  | text
  deriving DecidableEq

structure Flag where
  name : String
  kind : FlagKind
  letter : Option Char := none

inductive FlagError where
  | malformed (argument : String)
  | unknownName (name : String)
  | unknownLetter (letter : Char)
  | missingValue (name : String)
  | invalidValue (name value : String)

namespace Flag

def setting (f : Flag) : String := f.name.map fun c => if c = '-' then '_' else c

def value (f : Flag) (s : String) : Except FlagError Value :=
  let value? := match f.kind with
    | .switch => (Text.boolean? s).map .boolean
    | .number => (Text.literal? s.toList).map fun n => .integer n.toInt
    | .duration => (Duration.read? s).map fun n => .integer n.toInt
    | .text => some (.text s)
  match value? with
  | some v => .ok v
  | none => .error (.invalidValue f.name s)

def give (f : Flag) (s : String) : Except FlagError (String × Value) := do
  return (f.setting, ← f.value s)

/-- What an argument gives: some settings, and possibly a flag whose value is the next argument. -/
abbrev Given := Layer × Option Flag

def readName (flags : List Flag) (argument : String) : Except FlagError Given := do
  let cs := argument.toList
  if cs.head?.all fun c => c = '-' || c = '=' then throw (.malformed argument)
  let name := String.ofList (cs.takeWhile (· ≠ '='))
  let some f := flags.find? (·.name = name) | throw (.unknownName name)
  match cs.dropWhile (· ≠ '=') with
  | _ :: value => return ([← f.give (String.ofList value)], none)
  | [] => if f.kind = .switch then return ([← f.give "true"], none) else return ([], some f)

/-- What letters start with that are not meant for this program. -/
def foreign : List Char := "test.".toList

/-- Reads letters written together.  After the first letter of a flag that is no switch comes its
value. -/
def readLetters (flags : List Flag) : List Char → Except FlagError Given
  | [] => .ok ([], none)
  | c :: cs => do
    if foreign.isPrefixOf (c :: cs) then return ([], none)
    let some f := flags.find? (·.letter = some c) | throw (.unknownLetter c)
    match cs with
    | '=' :: d :: value => return ([← f.give (String.ofList (d :: value))], none)
    | _ =>
      if f.kind = .switch then
        let first ← f.give "true"
        let (rest, pending) ← readLetters flags cs
        return (first :: rest, pending)
      else if cs.isEmpty then return ([], some f)
      else return ([← f.give (String.ofList cs)], none)

def isFlag (argument : String) : Bool :=
  match argument.toList with
  | '-' :: _ :: _ => true
  | _ => false

def readArgument (flags : List Flag) (argument : String) : Except FlagError Given :=
  match argument.toList with
  | '-' :: '-' :: cs => readName flags (String.ofList cs)
  | _ :: cs => readLetters flags cs
  | [] => .ok ([], none)

/-- Divides arguments into the settings that flags give and other arguments. -/
def parse (flags : List Flag) : List String → Except FlagError (Layer × List String)
  | [] => .ok ([], [])
  | s :: args => do
    if s = "--" then return ([], args)
    if !isFlag s then
      let (layer, rest) ← parse flags args
      return (layer, s :: rest)
    match ← readArgument flags s with
    | (given, none) =>
      let (layer, rest) ← parse flags args
      return (given ++ layer, rest)
    | (given, some f) =>
      match args with
      | [] => throw (.missingValue f.name)
      | value :: args =>
        let setting ← f.give value
        let (layer, rest) ← parse flags args
        return (given ++ setting :: layer, rest)

end Flag

end Lasso
