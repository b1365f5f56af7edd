import Lasso.Formula.Reader
import Lasso.Machine.Basic

/-! # Selecting properties

Which properties and invariants of a machine are to be checked.
-/

namespace Lasso

set_option autoImplicit false

inductive SelectionError where
  | noProperties
  | noInvariants
  | unknownInvariant (name : String)
  | unknownProperty (name : String)
  /-- A formula given as a text is mistaken. -/
  | formula (text : String) (e : SyntaxError)

def SelectionError.message : SelectionError → String
  | .noProperties => "no properties to check"
  | .noInvariants => "no invariants to check"
  | .unknownInvariant name => "unknown invariant \"" ++ name ++ "\""
  | .unknownProperty name => "unknown property \"" ++ name ++ "\""
  | .formula text e => (Table.standalone text.toList).describe e

namespace Machine

def readSpecs : Nat → List String → StateM Table (Except SelectionError (List Spec))
  | _, [] => return .ok []
  | n, text :: texts => do
    match ← Table.readText text.toList with
    | .error e => return .error (.formula text e)
    | .ok f =>
      match ← readSpecs (n + 1) texts with
      | .error e => return .error e
      | .ok specs => return .ok (⟨"arg_" ++ toString n, f⟩ :: specs)

def selectSpecs (m : Machine) (texts : List String) :
    StateM Table (Except SelectionError (List Spec)) :=
  if texts.isEmpty then
    if m.specs.isEmpty then return .error .noProperties else return .ok m.specs.toList
  else readSpecs 1 texts

def selectSpec (specs : List Spec) (name : String) : Except SelectionError Spec :=
  match (if name = "" then specs.head? else specs.find? (·.name = name)) with
  | some spec => .ok spec
  | none => .error (.unknownProperty name)

def selectInvariants (m : Machine) (names : List String) : Except SelectionError (List Invariant) :=
  if m.invariants.isEmpty then .error .noInvariants
  else if names.isEmpty then .ok m.invariants.toList
  else names.mapM fun name =>
    match m.invariants.find? (·.name = name) with
    | some i => .ok i
    | none => .error (.unknownInvariant name)

end Machine

end Lasso
