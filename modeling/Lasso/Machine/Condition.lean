import Lasso.Machine.Timing
import Lasso.SExpr.Basic

/-! # Conditions

The expressions in which constraints and atomic propositions are written: constants, variables,
boolean operators and, where it is permitted, the next state.
-/

namespace Lasso

set_option autoImplicit false

inductive Malformed where
  | noOperator
  | unknownOperator (name : String)
  | noArguments
  | argumentCount (expected : Nat)
  | nextNotPermitted
  | shift (error : Encoding.ShiftError)

def Malformed.message : Malformed → String
  | .noOperator => "expected operator"
  | .unknownOperator name => "unknown operator \"" ++ name ++ "\""
  | .noArguments => "expected one or more arguments"
  | .argumentCount n => "expected " ++ toString n ++ " arguments"
  | .nextNotPermitted => "next not permitted here"
  | .shift (.nestedNext name) => "nested next of \"" ++ name ++ "\""
  | .shift (.inputVariable name) => "input variable \"" ++ name ++ "\" has no next state"

inductive ConditionError (α : Type) where
  | unknownVariable (expr : SExpr α)
  | malformed (expr : SExpr α) (reason : Malformed)

namespace ConditionError

variable {α : Type}

def expr : ConditionError α → SExpr α
  | .unknownVariable e => e
  | .malformed e _ => e

def message : ConditionError α → String
  | .unknownVariable e => "unknown variable \"" ++ e.text ++ "\""
  | .malformed e reason => "malformed expression " ++ e.text ++ " (" ++ reason.message ++ ")"

end ConditionError

inductive Connective where
  | not
  | next
  | xor
  | implies
  | iff
  | ite
  | and
  | or

namespace Connective

def ofName? : String → Option Connective
  | "not" | "!" => some .not
  | "next" => some .next
  | "xor" | "!=" => some .xor
  | "->" | "implies" => some .implies
  | "<->" | "iff" | "==" => some .iff
  | "ite" => some .ite
  | "and" | "&" => some .and
  | "or" | "|" => some .or
  | _ => none

/-- The number of arguments, or none if there may be any number but zero. -/
def arity? : Connective → Option Nat
  | .not | .next => some 1
  | .xor | .implies | .iff => some 2
  | .ite => some 3
  | .and | .or => none

end Connective

namespace Encoding

variable {α : Type}

/-- Constructions on an encoding that may fail; what was built before a failure stays. -/
abbrev Attempt (ε : Type) := ExceptT ε (StateM Encoding)

def attempt {ε : Type} (m : StateM Graph Lit) : Attempt ε Lit := ExceptT.lift (onGraph m)

def connect (c : Connective) (permitNext : Bool) (args : List Lit) : Attempt Malformed Lit :=
  match c, args with
  | .not, [a] => return a.not
  | .next, [a] => do
    unless permitNext do throw .nextNotPermitted
    match ← (shift a : StateM Encoding _) with
    | .ok l => return l
    | .error e => throw (.shift e)
  | .xor, [a, b] => attempt (Graph.xor a b)
  | .implies, [a, b] => attempt (Graph.implies a b)
  | .iff, [a, b] => attempt (Graph.iff a b)
  | .ite, [a, b, c] => attempt (Graph.ite a b c)
  | .and, _ :: _ => attempt (Graph.all args)
  | .or, _ :: _ => attempt (Graph.any args)
  | c, _ =>
    match c.arity? with
    | some n => throw (.argumentCount n)
    | none => throw .noArguments

def conditionName? (e : Encoding) : String → Option Lit
  | "true" | "TRUE" | "1" => some Graph.truth
  | "false" | "FALSE" | "0" => some Graph.falsity
  | name => (e.lookup? name).map (·.current)

mutual

/-- The expression of a condition.  Arguments are converted from the left before the operator is
looked at. -/
def condition (permitNext : Bool) : SExpr α → Attempt (ConditionError α) Lit
  | .symbol note name => do
    match (← get).conditionName? name with
    | some l => return l
    | none => throw (.unknownVariable (.symbol note name))
  | .list note (.symbol note' name :: args) => do
    let blame (reason : Malformed) : ConditionError α :=
      .malformed (.list note (.symbol note' name :: args)) reason
    let ls ← conditions permitNext args
    match Connective.ofName? name with
    | none => throw (blame (.unknownOperator name))
    | some c => (connect c permitNext ls).adapt blame
  | e@(.list _ _) => throw (.malformed e .noOperator)

def conditions (permitNext : Bool) : List (SExpr α) → Attempt (ConditionError α) (List Lit)
  | [] => return []
  | e :: es => do
    let l ← condition permitNext e
    return l :: (← conditions permitNext es)

end

end Encoding

end Lasso
