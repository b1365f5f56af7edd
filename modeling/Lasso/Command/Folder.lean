/-! # Files and folders

A file is found by the steps of its name, which lead down from the root or from the folder at hand.
Each step has to start in a folder, also one that leads back.  Nothing is known of the folders
above the one at hand but that they are there.
-/

namespace Lasso

set_option autoImplicit false

inductive FileError where
  | missing
  /-- There is a folder in its place. -/
  | folder
  /-- Something on the way to it is a file. -/
  | notFolder
  /-- The name or a step of it is too long. -/
  | tooLong
  /-- No file can have the name. -/
  | invalid
  deriving DecidableEq, Repr

namespace FileError

def reason : FileError → String
  | .missing => "no such file or directory"
  | .folder => "is a directory"
  | .notFolder => "not a directory"
  | .tooLong => "file name too long"
  | .invalid => "invalid argument"

/-- The message about a file to be read.  A folder is found out only when it is read from. -/
def readMessage (e : FileError) (name : String) : String :=
  (if e = .folder then "read " else "open ") ++ name ++ ": " ++ e.reason

def writeMessage (e : FileError) (name : String) : String := "open " ++ name ++ ": " ++ e.reason

end FileError

namespace FileName

def limit : Nat := 4096

def stepLimit : Nat := 255

def isAbsolute (name : String) : Bool := name.startsWith "/"

def steps (name : String) : List String := (name.splitOn "/").filter (· ≠ "")

/-- Takes a step after others, if none is looked up on the way: a point stays, and two points undo
the last step.  Above the root there is nothing. -/
def proceed (absolute : Bool) (taken : List String) (step : String) : List String :=
  if step = "." then taken
  else if step ≠ ".." then taken ++ [step]
  else if taken.getLast?.all (· = "..") then if absolute then taken else taken ++ [step]
  else taken.dropLast

/-- The shortest name with the same effect, if no step is looked up on the way. -/
def clean (name : String) : String :=
  let taken := (steps name).foldl (proceed (isAbsolute name)) []
  if isAbsolute name then "/" ++ "/".intercalate taken
  else if taken.isEmpty then "."
  else "/".intercalate taken

end FileName

/-- A place in the tree of folders: some steps down from the root, or from the folder that lies so
many levels above the one at hand. -/
structure Place where
  above? : Option Nat
  steps : List String
  deriving DecidableEq, Repr

namespace Place

def root : Place := ⟨none, []⟩

def here : Place := ⟨some 0, []⟩

def child (p : Place) (step : String) : Place := { p with steps := p.steps ++ [step] }

def parent (p : Place) : Place :=
  if p.steps.isEmpty then { p with above? := p.above?.map (· + 1) }
  else { p with steps := p.steps.dropLast }

def isInside (p q : Place) : Bool :=
  p.above? = q.above? && q.steps.length < p.steps.length && q.steps.isPrefixOf p.steps

def null : Place := ⟨none, ["dev", "null"]⟩

def common : List Place :=
  ["bin", "dev", "etc", "home", "lib", "media", "mnt", "opt", "proc", "root", "run", "sbin", "srv",
    "sys", "tmp", "usr", "var"].map root.child

def start (name : String) : Place := if FileName.isAbsolute name then root else here

end Place

structure Folder where
  files : List (Place × String)

namespace Folder

def ofFiles (files : List (String × String)) : Folder :=
  ⟨files.map fun (name, text) => (⟨some 0, FileName.steps name⟩, text)⟩

def isFolder (f : Folder) (p : Place) : Bool :=
  p.steps.isEmpty || Place.common.contains p || f.files.any (·.1.isInside p)

def text? (f : Folder) (p : Place) : Option String :=
  if p = .null then some "" else (f.files.find? (·.1 = p)).map (·.2)

def walk (f : Folder) : Place → List String → Except FileError Place
  | p, [] => .ok p
  | p, step :: rest =>
    if !f.isFolder p then .error (if (f.text? p).isSome then .notFolder else .missing)
    else if step = "." then f.walk p rest
    else if step = ".." then f.walk p.parent rest
    else if step.utf8ByteSize > FileName.stepLimit then .error .tooLong
    else f.walk (p.child step) rest

def checkName (name : String) : Except FileError Unit :=
  if name = "" then .error .missing
  else if name.contains '\x00' then .error .invalid
  else if name.utf8ByteSize ≥ FileName.limit then .error .tooLong
  else .ok ()

/-- The text of the file with a name.  A slash at the end stands for a step that stays. -/
def read (f : Folder) (name : String) : Except FileError String := do
  checkName name
  let stay := if name.endsWith "/" then ["."] else []
  let p ← f.walk (.start name) (FileName.steps name ++ stay)
  if f.isFolder p then throw .folder
  match f.text? p with
  | some text => return text
  | none => throw .missing

/-- The place for a file that is to be written, which has to be in a folder. -/
def target (f : Folder) (name : String) : Except FileError Place := do
  checkName name
  let some last := (FileName.steps name).getLast? | throw .folder
  let p ← f.walk (.start name) ((FileName.steps name).dropLast ++ ["."])
  if last = "." || last = ".." || name.endsWith "/" then throw .folder
  let p ← f.walk p [last]
  if f.isFolder p then throw .folder
  return p

/-- Replaces the text of the file at a place, which is made if there is none. -/
def write (f : Folder) (p : Place) (text : String) : Folder :=
  if p = .null then f else ⟨(p, text) :: f.files.filter (·.1 ≠ p)⟩

def create (f : Folder) (name : String) : Except FileError Folder := do
  return f.write (← f.target name) ""

def append (f : Folder) (name text : String) : Folder :=
  match f.target name with
  | .ok p => f.write p ((f.text? p).getD "" ++ text)
  | .error _ => f

end Folder

end Lasso
