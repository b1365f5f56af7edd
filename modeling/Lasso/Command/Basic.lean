import Lasso.Command.Flag

/-! # Commands

The commands of the program, the flags each of them has, and what is said about them on request.
-/

namespace Lasso

set_option autoImplicit false

namespace Flag

def verbose : Flag := ⟨"verbose", .switch, some 'v'⟩
def config : Flag := ⟨"config", .text, some 'c'⟩
def bound : Flag := ⟨"bound", .number, some 'k'⟩
def loop : Flag := ⟨"loop", .text, some 'l'⟩
def timeout : Flag := ⟨"timeout", .duration, none⟩
def colour : Flag := ⟨"colour", .text, none⟩
def oneProblem : Flag := ⟨"one-problem", .switch, none⟩
def incremental : Flag := ⟨"incremental", .switch, none⟩
def offset : Flag := ⟨"offset", .number, none⟩
def fairness : Flag := ⟨"fairness", .switch, none⟩
def problem : Flag := ⟨"problem", .switch, none⟩
def print : Flag := ⟨"print", .switch, none⟩
def output : Flag := ⟨"output", .text, some 'o'⟩
def spec : Flag := ⟨"spec", .text, none⟩
def method : Flag := ⟨"method", .text, none⟩
def version : Flag := ⟨"version", .switch, none⟩
def help : Flag := ⟨"help", .switch, some 'h'⟩

def shared : List Flag := [verbose, config, bound, loop, timeout, colour]

def general : List Flag := version :: shared

def ofSettings : List Flag :=
  [bound, loop, offset, oneProblem, incremental, fairness, verbose, method, colour, timeout]

end Flag

inductive Command where
  | check
  | dimacs
  | encode
  | help
  | invar
  | loops
  deriving DecidableEq, Repr

namespace Command

def ofName? : String → Option Command
  | "check" => some .check
  | "dimacs" => some .dimacs
  | "encode" => some .encode
  | "help" => some .help
  | "invar" => some .invar
  | "loops" => some .loops
  | _ => none

def ownFlags : Command → List Flag
  | .check => [.oneProblem, .incremental]
  | .dimacs => [.output, .spec]
  | .encode => [.offset, .fairness, .problem, .print]
  | .invar => [.method]
  | .help | .loops => []

def flags (c : Command) : List Flag := .help :: (c.ownFlags ++ Flag.shared)

def form : Command → String
  | .check => "check [flags] model_file [formula...]"
  | .dimacs => "dimacs [flags] model_file [formula]"
  | .encode => "encode [flags] model_file [formula...]"
  | .help => "help [command]"
  | .invar => "invar [flags] model_file [name...]"
  | .loops => "loops [flags] bound loop..."

def about : Command → String
  | .check =>
    "Check temporal properties of a model, by searching for counterexamples of\n" ++
    "\tincreasing length up to a given bound.  Properties are either given on the\n" ++
    "\tcommand line, or taken from the ltlspec declarations of the model.  The\n" ++
    "\texit code is 1 if any property is violated (or could not be checked)."
  | .dimacs =>
    "Write the problem of finding a counterexample of exactly the configured\n" ++
    "\tlength to a property in DIMACS format, such that it can be passed to an\n" ++
    "\texternal SAT solver.  The property is either given on the command line or\n" ++
    "\tis the first (or named) ltlspec of the model.  Comments at the start of\n" ++
    "\tthe output name the DIMACS variable of each timed model variable."
  | .encode =>
    "Encode temporal properties of a model as boolean expressions, using the\n" ++
    "\tbounded semantics for the configured bound, loop and offset.  Alternatively,\n" ++
    "\tthe complete checking problem for each property can be encoded.  Statistics\n" ++
    "\tabout each encoding are reported and, optionally, the encoding itself."
  | .help =>
    "Help provides help for any command in the application.\n" ++
    "Simply type go-bmc help [path to command] for full details."
  | .invar =>
    "Check the invarspec declarations of a model (or only those named) hold in\n" ++
    "\tevery reachable state.  Invariants are either proved by simple induction,\n" ++
    "\tor proved or refuted by temporal induction over paths up to the bound.\n" ++
    "\tThe exit code is 1 if any invariant is violated (or could not be checked)."
  | .loops =>
    "Explain how each given loop specification is interpreted for paths of the\n" ++
    "\tgiven length.  For each, the absolute loop is reported along with the\n" ++
    "\torder in which steps of the path are visited."

def aboutAll : String :=
  "A bounded model checker for linear temporal logic.  Properties of a\n" ++
  "\tmodel are encoded as propositional problems over a bounded unrolling of\n" ++
  "\tthe model, which are then discharged by a SAT solver."

def usageLine (form : String) : String := "  go-bmc " ++ form ++ "\n"

def usage : Option Command → String
  | some c => "Usage:\n" ++ usageLine c.form
  | none => "Usage:\n" ++ String.join
      ([Command.check, .dimacs, .encode, .help, .invar, .loops].map fun c => usageLine c.form)

def manual (c? : Option Command) : String :=
  (c?.map about).getD aboutAll ++ "\n\n" ++ usage c?

/-- Whether the next argument counts as the value of a flag.  A flag that is not known yet is taken
to have one. -/
def takesValue (flags : List Flag) (argument : String) : Bool :=
  !argument.toList.contains '=' &&
    match argument.toList with
    | '-' :: '-' :: name => !flags.any fun f => f.name = String.ofList name && f.kind = .switch
    | ['-', c] => c.toNat < 128 && !flags.any fun f => f.letter = some c && f.kind = .switch
    | _ => false

/-- The arguments that are neither flags nor values of flags.  The last argument never counts if it
may be a value. -/
def words (flags : List Flag) : List String → List String
  | [] => []
  | s :: args =>
    if s = "--" then []
    else if takesValue flags s then
      match args with
      | [] => []
      | _ :: rest => if rest.isEmpty then [] else words flags rest
    else if s ≠ "" && !s.startsWith "-" then s :: words flags args
    else words flags args

def without (flags : List Flag) (word : String) : List String → List String
  | [] => []
  | s :: args =>
    if s = "--" then s :: args
    else if takesValue flags s then
      match args with
      | [] => [s]
      | value :: rest => s :: value :: without flags word rest
    else if s = word then args
    else s :: without flags word args

inductive Request where
  | general (args : List String)
  | command (c : Command) (args : List String)
  | unknown (name : String)

def request (args : List String) : Request :=
  match words Flag.general args with
  | [] => .general args
  | name :: _ =>
    match ofName? name with
    | some c => .command c (without Flag.general name args)
    | none => .unknown name

end Command

end Lasso
