import Lasso.Command.Run
import Lasso.Text.Utf8

/-! # The program

Carries out the script of a command in the folder it is called from.
-/

namespace Lasso

set_option autoImplicit false

/-- The number of the error that something on the way to a file is no folder. -/
def notFolderCode : UInt32 := 20

def tooLongCode : UInt32 := 36

def FileError.ofSystem : IO.Error → FileError
  | .inappropriateType _ code _ => if code = notFolderCode then .notFolder else .folder
  | .invalidArgument _ code _ => if code = tooLongCode then .tooLong else .invalid
  | _ => .missing

namespace Script

def readText (name : String) : IO (Except FileError String) := do
  try
    let bytes ← IO.FS.readBinFile name
    return .ok (String.ofList (Text.decodeUtf8 bytes.toList))
  catch e => return .error (.ofSystem e)

def createFile (name : String) : IO (Except FileError Unit) := do
  try
    IO.FS.writeFile name ""
    return .ok ()
  catch e => return .error (.ofSystem e)

def appendText (name text : String) : IO Unit := do
  let file ← IO.FS.Handle.mk name .append
  file.putStr text

def carryOut {α : Type} : Script α → IO α
  | done a => return a
  | print text next => do
    (← IO.getStdout).putStr text
    next.carryOut
  | read name next => do (next (← readText name)).carryOut
  | create name next => do (next (← createFile name)).carryOut
  | append name text next => do
    appendText name text
    next.carryOut

end Script

def Host.current : IO Host := do
  let settings := Settings.defaults.map (·.1)
  let environment ← settings.filterMapM fun setting => do
    let name := Settings.variableName setting
    return (← IO.getEnv name).map (name, ·)
  return ⟨environment, ← (← IO.getStdout).isTty⟩

end Lasso

def main (args : List String) : IO UInt32 := do
  let status ← (Lasso.Command.script (← Lasso.Host.current) args).carryOut
  return status.toUInt32
