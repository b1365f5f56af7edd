import Lasso.Bounded.Loop
import Lasso.Report.Check
import Lasso.Settings.Value

/-! # Settings

Settings are drawn from layers, of which a later one counts more: the defaults, a file, the
environment, and what is given on the command line.
-/

namespace Lasso

set_option autoImplicit false

structure Settings where
  bound : Int64
  loop : String
  /-- The time at which encodings start. -/
  offset : Int64
  /-- Only paths whose length is the bound are considered. -/
  oneProblem : Bool
  /-- One session serves for all lengths. -/
  incremental : Bool
  method : String
  /-- Encodings are restricted to fair paths. -/
  fairness : Bool
  /-- The nanoseconds allowed for a property, where zero stands for any number. -/
  timeout : Int64
  colour : String
  verbose : Bool
  deriving DecidableEq, Repr

namespace Settings

def defaults : Layer :=
  [("bound", .integer 10), ("loop", .text "all"), ("offset", .integer 0),
    ("one_problem", .boolean false), ("incremental", .boolean false),
    ("method", .text "een-sorensson"), ("fairness", .boolean false), ("timeout", .text "0s"),
    ("colour", .text "auto"), ("verbose", .boolean false)]

/-- What is given by a variable of the environment, which is known by how its name starts.  A point
in the name divides a setting from a part of it, and settings have no parts. -/
def ofVariable? (name value : String) : Option (String × Value) :=
  if name.startsWith "BMC_" then
    let cs := Text.lower (name.toList.drop 4)
    let setting := String.ofList (cs.takeWhile (· ≠ '.'))
    some (setting, if cs.contains '.' then .collection else .text value)
  else none

/-- The settings given by variables of the environment, where parts of settings count least. -/
def ofEnvironment (environment : List (String × String)) : Layer :=
  let given := environment.filterMap fun (name, value) => ofVariable? name value
  given.filter (·.2 = .collection) ++ given.filter (·.2 ≠ .collection)

def variableName (setting : String) : String := "BMC_" ++ setting.map Char.toUpper

def ofLayer? (l : Layer) : Option Settings := do
  let value (name : String) : Value := (l.get? name).getD .nothing
  return {
    bound := ← (value "bound").toWord?
    loop := ← (value "loop").toText?
    offset := ← (value "offset").toWord?
    oneProblem := ← (value "one_problem").toBool?
    incremental := ← (value "incremental").toBool?
    method := ← (value "method").toText?
    fairness := ← (value "fairness").toBool?
    timeout := ← (value "timeout").toDuration?
    colour := ← (value "colour").toText?
    verbose := ← (value "verbose").toBool? }

inductive Invalid where
  | loop (text : String)
  | negativeOffset
  | negativeTimeout
  | colour (text : String)
  | method (text : String)
  | argument (e : ArgumentError)

def Invalid.message : Invalid → String
  | .loop text => Loop.parseError text
  | .negativeOffset => "offset cannot be negative"
  | .negativeTimeout => "timeout cannot be negative"
  | .colour text => "unknown colour mode \"" ++ text ++ "\""
  | .method text => "unknown invariant method \"" ++ text ++ "\""
  | .argument e => e.message

def loop? (s : Settings) : Option Loop := Loop.parse? s.loop.toList

def method? (s : Settings) : Option Report.Method :=
  match s.method with
  | "induction" => some .induction
  | "een-sorensson" => some .temporalInduction
  | _ => none

/-- Whether to colour the output, which depends on the device it goes to if that is not settled. -/
def coloured? (s : Settings) (terminal : Bool) : Option Bool :=
  match s.colour with
  | "auto" => some terminal
  | "always" => some true
  | "never" => some false
  | _ => none

structure Plan where
  settings : Settings
  loop : Loop
  method : Report.Method
  coloured : Bool

def plan (s : Settings) (terminal : Bool) : Except Invalid Plan := do
  let some loop := s.loop? | throw (.loop s.loop)
  if s.offset < 0 then throw .negativeOffset
  if s.timeout < 0 then throw .negativeTimeout
  let some coloured := s.coloured? terminal | throw (.colour s.colour)
  let some method := s.method? | throw (.method s.method)
  (loop.check s.bound).mapError .argument
  return ⟨s, loop, method, coloured⟩

end Settings

end Lasso
