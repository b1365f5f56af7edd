import Lasso.Command.Folder

/-! # Scripts

What a command does to its surroundings is written down as a script: texts that are printed, and
files that are read and written.  A script can be carried out in a folder whose files are given.
-/

namespace Lasso

set_option autoImplicit false

inductive Script (α : Type) where
  | done (result : α)
  | print (text : String) (next : Script α)
  | read (name : String) (next : Except FileError String → Script α)
  | create (name : String) (next : Except FileError Unit → Script α)
  | append (name text : String) (next : Script α)

namespace Script

variable {α β : Type}

def bind (s : Script α) (f : α → Script β) : Script β :=
  match s with
  | done a => f a
  | print text next => print text (next.bind f)
  | read name next => read name fun r => (next r).bind f
  | create name next => create name fun r => (next r).bind f
  | append name text next => append name text (next.bind f)

instance : Monad Script where
  pure := done
  bind := bind

/-- Carries out a script in a folder.  The result comes with what was printed and the folder as it
was left. -/
def runIn : Script α → Folder → α × String × Folder
  | done a, f => (a, "", f)
  | print text next, f =>
    let (a, output, f) := next.runIn f
    (a, text ++ output, f)
  | read name next, f => (next (f.read name)).runIn f
  | create name next, f =>
    match f.create name with
    | .ok g => (next (.ok ())).runIn g
    | .error e => (next (.error e)).runIn f
  | append name text next, f => next.runIn (f.append name text)

end Script

end Lasso
