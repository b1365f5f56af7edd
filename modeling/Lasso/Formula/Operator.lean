/-! # Temporal operators

The connectives of linear temporal logic with past, by number of operands.  Operators are also
known by a code of one byte; the codes without a fixed meaning are reserved for binary operators.
-/

namespace Lasso

set_option autoImplicit false

inductive UnaryOp where
  | not
  | next
  | globally
  | eventually
  | previous
  | once
  | historically
  deriving DecidableEq, Hashable, Repr, Inhabited

inductive BinaryOp where
  | and
  | or
  | xor
  | implies
  | iff
  | untl
  | releases
  | since
  | reserved (index : Fin 240)
  deriving DecidableEq, Hashable, Repr, Inhabited

inductive Operator where
  | atom
  | unary (op : UnaryOp)
  | binary (op : BinaryOp)
  deriving DecidableEq, Repr, Inhabited

namespace UnaryOp

def name : UnaryOp → String
  | not => "not"
  | next => "X"
  | globally => "G"
  | eventually => "F"
  | previous => "Y"
  | once => "O"
  | historically => "H"

def isPast : UnaryOp → Bool
  | previous | once | historically => true
  | _ => false

def isTemporal : UnaryOp → Bool
  | not => false
  | _ => true

end UnaryOp

namespace BinaryOp

def name : BinaryOp → String
  | and => "and"
  | or => "or"
  | xor => "xor"
  | implies => "->"
  | iff => "<->"
  | untl => "U"
  | releases => "R"
  | since => "S"
  | reserved index => "op#" ++ toString (16 + index.val)

def isPast : BinaryOp → Bool
  | since => true
  | _ => false

def isTemporal : BinaryOp → Bool
  | and | or | xor | implies | iff => false
  | _ => true

end BinaryOp

namespace Operator

def name : Operator → String
  | atom => "atom"
  | unary op => op.name
  | binary op => op.name

def arity : Operator → Nat
  | atom => 0
  | unary _ => 1
  | binary _ => 2

def isPast : Operator → Bool
  | atom => false
  | unary op => op.isPast
  | binary op => op.isPast

def isTemporal : Operator → Bool
  | atom => false
  | unary op => op.isTemporal
  | binary op => op.isTemporal

def table : List Operator :=
  [.atom, .binary .and, .binary .or, .binary .xor, .unary .not, .binary .implies, .binary .iff,
    .unary .next, .unary .globally, .unary .eventually, .binary .untl, .binary .releases,
    .unary .previous, .unary .once, .unary .historically, .binary .since]

def ofCode (code : UInt8) : Operator :=
  if h : code.toNat < 16 then table.getD code.toNat .atom
  else .binary (.reserved ⟨code.toNat - 16, by have := code.toNat_lt; omega⟩)

def ofName? : String → Option Operator
  | "and" | "&" => some (.binary .and)
  | "or" | "|" => some (.binary .or)
  | "xor" => some (.binary .xor)
  | "not" | "!" => some (.unary .not)
  | "->" | "implies" => some (.binary .implies)
  | "<->" | "iff" => some (.binary .iff)
  | "X" => some (.unary .next)
  | "G" => some (.unary .globally)
  | "F" => some (.unary .eventually)
  | "U" => some (.binary .untl)
  | "R" | "V" => some (.binary .releases)
  | "Y" => some (.unary .previous)
  | "O" => some (.unary .once)
  | "H" => some (.unary .historically)
  | "S" => some (.binary .since)
  | _ => none

end Operator

end Lasso
