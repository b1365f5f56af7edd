import Lasso.Command.Basic
import Lasso.Machine.Reader
import Lasso.Report.Check
import Lasso.Report.Selection
import Lasso.Settings.Load

/-! # Running commands

A command reads its settings and its model, and reports on what it is asked for.  It ends with a
status: zero if all went well, one if something does not hold or cannot be encoded, and two if the
command itself makes no sense.
-/

namespace Lasso

set_option autoImplicit false

abbrev Status := Nat

/-- The surroundings of a command apart from files: the variables of the environment, and whether
the output goes to a terminal. -/
structure Host where
  environment : List (String × String)
  terminal : Bool

namespace Command

abbrev Action := ExceptT Status Script

def print (text : String) : Action Unit := ExceptT.lift (.print text (.done ()))

def printLine (text : String) : Action Unit := print (text ++ "\n")

def stop {α : Type} (status : Status) (message : String) : Action α := do
  printLine message
  throw status

def textOf (given : Layer) (f : Flag) (standard : String) : String :=
  ((given.get? f.setting).bind Value.toText?).getD standard

def isOn (given : Layer) (f : Flag) : Bool :=
  ((given.get? f.setting).bind Value.toBool?).getD false

def loadPlan (host : Host) (given : Layer) : Action Settings.Plan := do
  match ← ExceptT.lift (Settings.load (textOf given .config "") host.environment given) with
  | .error e => stop 2 e.message
  | .ok s =>
    match s.plan host.terminal with
    | .error e => stop 2 e.message
    | .ok p => return p

def readModel (name : String) : Action (Model × Table) := do
  match ← ExceptT.lift (.read name .done) with
  | .error e => stop 2 (e.readMessage name)
  | .ok text =>
    let s : Source := ⟨name, text.toList⟩
    match (Model.read s).run {} with
    | (.ok m, t) => return (m, t)
    | (.error es, _) =>
      print (String.join (es.map s.render))
      throw 2

def selected {α : Type} : Except SelectionError α → Action α
  | .ok a => return a
  | .error (.formula text e) => do
    print ((Table.standalone text.toList).render e)
    throw 2
  | .error e => stop 2 e.message

def readSpecs (name : String) (formulas : List String) :
    Action (Machine × List Spec × Encoder) := do
  let (m, t) ← readModel name
  let (specs, t) := (m.machine.selectSpecs formulas).run t
  return (m.machine, ← selected specs, ⟨m.encoding, t, {}⟩)

def checkSpecs (p : Settings.Plan) (m : Machine) : List Spec → Encoder → Action Bool
  | [], _ => return true
  | spec :: specs, s => do
    let check := if p.settings.incremental then Encoder.checkIncremental else Encoder.check
    let (r, s) := (check m spec.formula p.settings.bound p.loop p.settings.oneProblem).run s
    let report := Report.ofSpec spec r p.coloured
    print report.text
    return (← checkSpecs p m specs s) && report.good

def checkInvariants (p : Settings.Plan) (m : Machine) : List Invariant → Encoder → Action Bool
  | [], _ => return true
  | i :: is, s => do
    let (r, s) := (Encoder.checkBy m p.method i.expr p.settings.bound).run s
    let report := Report.ofInvariant i.name p.method r p.coloured
    print report.text
    return (← checkInvariants p m is s) && report.good

def encodingLine (name : String) (s : Encoder) (l : Lit) : String :=
  let g := s.encoding.graph
  name ++ ": " ++ toString g.size ++ " nodes, " ++ toString (g.support l).length ++
    " variables, " ++ toString s.cache.size ++ " cached encodings"

/-- Encodes properties in order, up to the first that cannot be encoded. -/
def encodeSpecs (p : Settings.Plan) (m : Machine) (asProblem shown : Bool) :
    List Spec → Encoder → Action Unit
  | [], _ => return
  | spec :: specs, s => do
    let (r, s) := (Encoder.encode m spec.formula p.settings.bound p.loop p.settings.offset
      p.settings.fairness asProblem).run s
    match r.toExcept with
    | .error e => stop 1 (spec.name ++ ": " ++ e.message)
    | .ok l =>
      printLine (encodingLine spec.name s l)
      if shown then printLine (s.encoding.render l)
      encodeSpecs p m asProblem shown specs s

/-- Puts a text on the output, or into a file, which is made even if there is no text. -/
def deliver (name : String) (text : Except String String) : Action Unit := do
  let toOutput := name = "" || name = "-"
  if !toOutput then
    match ← ExceptT.lift (.create name .done) with
    | .error e => stop 1 (e.writeMessage name)
    | .ok () => pure ()
  match text with
  | .error message => stop 1 message
  | .ok text => if toOutput then print text else ExceptT.lift (.append name text (.done ()))

def explainLoops (bound : Int64) : List String → Action Bool
  | [] => return true
  | text :: texts => do
    match Loop.explain bound text with
    | .error .unbounded => throw 2
    | .error e =>
      printLine (text ++ ": " ++ e.message)
      let _ ← explainLoops bound texts
      return false
    | .ok explanation =>
      printLine (text ++ ": " ++ explanation)
      explainLoops bound texts

def require (good : Bool) : Action Unit := if good then return else throw 1

/-- Does what a command is there for.  With arguments that are too few or too many, it only says how
to write it down. -/
def perform (host : Host) (c : Command) (given : Layer) (args : List String) : Action Unit := do
  match c, args with
  | .check, file :: formulas =>
    let p ← loadPlan host given
    let (m, specs, s) ← readSpecs file formulas
    require (← checkSpecs p m specs s)
  | .invar, file :: names =>
    let p ← loadPlan host given
    let (m, t) ← readModel file
    let invariants ← selected (m.machine.selectInvariants names)
    require (← checkInvariants p m.machine invariants ⟨m.encoding, t, {}⟩)
  | .encode, file :: formulas =>
    let p ← loadPlan host given
    let (m, specs, s) ← readSpecs file formulas
    encodeSpecs p m (isOn given .problem) (isOn given .print) specs s
  | .dimacs, [file] => dimacs file []
  | .dimacs, [file, formula] => dimacs file [formula]
  | .loops, bound :: loop :: more =>
    match Text.integer? bound.toList with
    | none => stop 2 ("invalid bound \"" ++ bound ++ "\"")
    | some k => require (← explainLoops k (loop :: more))
  | .help, args =>
    match request args with
    | .general _ => print (manual none)
    | .command c _ => print (manual c)
    | .unknown _ => return
  | c, _ => stop 2 (usage c)
where
  dimacs (file : String) (formulas : List String) : Action Unit := do
    let p ← loadPlan host given
    let (m, specs, s) ← readSpecs file formulas
    let spec ← selected (Machine.selectSpec specs (textOf given .spec ""))
    let text := ((Encoder.dimacs m spec.formula p.settings.bound p.loop).run s).1
    deliver (textOf given .output "-") (text.mapError EncodeError.message)

def withFlags (flags : List Flag) (c? : Option Command) (args : List String)
    (next : Layer → List String → Action Unit) : Action Unit := do
  match Flag.parse flags args with
  | .error _ => throw 2
  | .ok (given, args) => if isOn given .help then print (manual c?) else next given args

def act (host : Host) (args : List String) : Action Unit := do
  match request args with
  | .unknown _ => throw 2
  | .command c args => withFlags c.flags (some c) args (perform host c)
  | .general args =>
    withFlags (.help :: Flag.general) none args fun given _ =>
      if isOn given .version then printLine "go-bmc (unknown version)" else printLine (usage none)

def script (host : Host) (args : List String) : Script Status := do
  match ← (act host args).run with
  | .ok () => return 0
  | .error status => return status

end Command

end Lasso
