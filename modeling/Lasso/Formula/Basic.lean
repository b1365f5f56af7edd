import Lasso.Formula.Operator
import Lasso.SExpr.Basic

/-! # Temporal formulas

A formula is built from atomic propositions by temporal and boolean operators.  The meaning of
an atomic proposition is given by an expression over the variables of a machine, and is not
looked into here.
-/

namespace Lasso

set_option autoImplicit false

abbrev Expr := SExpr Unit

/-- Every formula knows its code, so that formulas with much in common are told apart at once. -/
inductive Formula where
  | atom (expr : Expr)
  | unary (op : UnaryOp) (arg : Formula)
  | binary (op : BinaryOp) (left right : Formula)
with
  @[computed_field] code : Formula → UInt64
    | .atom e => hash e
    | .unary op f => mixHash (hash op) f.code
    | .binary op f g => mixHash (hash op) (mixHash f.code g.code)
deriving Inhabited

namespace Formula

instance : Hashable Formula := ⟨code⟩

/-- Compares formulas.  Operands that are one object in memory are equal, and not looked into. -/
def decEq : (f g : Formula) → Decidable (f = g)
  | .atom d, .atom e => if h : d = e then isTrue (h ▸ rfl) else isFalse (by simp [h])
  | .unary o f, .unary p g =>
    if ho : o = p then
      match withPtrEqDecEq f g fun _ => decEq f g with
      | isTrue hf => isTrue (by rw [ho, hf])
      | isFalse hf => isFalse (by simp [hf])
    else isFalse (by simp [ho])
  | .binary o f₁ f₂, .binary p g₁ g₂ =>
    if ho : o = p then
      match withPtrEqDecEq f₁ g₁ fun _ => decEq f₁ g₁ with
      | isTrue h₁ =>
        match withPtrEqDecEq f₂ g₂ fun _ => decEq f₂ g₂ with
        | isTrue h₂ => isTrue (by rw [ho, h₁, h₂])
        | isFalse h₂ => isFalse (by simp [h₂])
      | isFalse h₁ => isFalse (by simp [h₁])
    else isFalse (by simp [ho])
  | .atom _, .unary _ _ | .atom _, .binary _ _ _ | .unary _ _, .atom _
  | .unary _ _, .binary _ _ _ | .binary _ _ _, .atom _ | .binary _ _ _, .unary _ _ =>
    isFalse nofun

instance : DecidableEq Formula := fun f g => withPtrEqDecEq f g fun _ => decEq f g

def operator : Formula → Operator
  | atom _ => .atom
  | unary op _ => .unary op
  | binary op _ _ => .binary op

def left? : Formula → Option Formula
  | atom _ => none
  | unary _ f => some f
  | binary _ f _ => some f

def right? : Formula → Option Formula
  | binary _ _ g => some g
  | _ => none

def text : Formula → String
  | atom e => e.text
  | unary op f => "(" ++ op.name ++ " " ++ f.text ++ ")"
  | binary op f g => "(" ++ op.name ++ " " ++ f.text ++ " " ++ g.text ++ ")"

def depth : Formula → Nat
  | atom _ => 0
  | unary op f => f.depth + op.isTemporal.toNat
  | binary op f g => max f.depth g.depth + op.isTemporal.toNat

def isPast : Formula → Bool
  | atom _ => false
  | unary op f => op.isPast || f.isPast
  | binary op f g => op.isPast || g.isPast || f.isPast

def preorder : Formula → List Formula
  | atom e => [atom e]
  | unary op f => unary op f :: f.preorder
  | binary op f g => binary op f g :: (f.preorder ++ g.preorder)

def subformulas (f : Formula) : List Formula := f.preorder.eraseDups

end Formula

end Lasso
