import Lasso.Command.Script
import Lasso.Settings.Basic
import Lasso.Settings.File

/-! # Loading settings

The layers of settings are collected.  A file that is asked for has to be there, while the standard
file is used only if there is one.
-/

namespace Lasso

set_option autoImplicit false

namespace Settings

def standardFile : String := "go-bmc.yaml"

inductive LoadError where
  | unreadable (name : String) (e : FileError)
  | malformed (name : String)
  /-- A setting cannot be made from what is given for it. -/
  | undecodable

def LoadError.message : LoadError → String
  | .unreadable name e =>
    "error reading config file " ++ name ++ ": " ++ e.readMessage (FileName.clean name)
  | .malformed name => "error reading config file " ++ name
  | .undecodable => "unable to decode config"

/-- The settings in a file, which may be missing if it is not required.  The file is looked for by
the shortest name. -/
def readFile (name : String) (required : Bool) : Script (Except LoadError Layer) :=
  .read (FileName.clean name) fun
    | .error e =>
      if e = .missing ∧ !required then .done (.ok []) else .done (.error (.unreadable name e))
    | .ok text =>
      match SettingsFile.read? text with
      | some layer => .done (.ok layer)
      | none => .done (.error (.malformed name))

/-- The settings drawn from the file with a name, or the standard file if the name is empty, from
the variables of the environment, and from what is given. -/
def load (file : String) (environment : List (String × String)) (given : Layer) :
    Script (Except LoadError Settings) := do
  let fromFile ← if file = "" then readFile standardFile false else readFile file true
  match fromFile with
  | .error e => return .error e
  | .ok layer =>
    match ofLayer? (defaults ++ layer ++ ofEnvironment environment ++ given) with
    | some settings => return .ok settings
    | none => return .error .undecodable

end Settings

end Lasso
