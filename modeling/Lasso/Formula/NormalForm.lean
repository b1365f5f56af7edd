import Lasso.Formula.Basic

/-! # Negation normal form

Negations are pushed towards the atoms with the dualities of the operators, and only conjunction
and disjunction remain of the boolean connectives.  An operator without a dual is kept beneath its
negation, over normal operands.
-/

namespace Lasso

set_option autoImplicit false

/-- What becomes of an operator with one operand when a negation passes it. -/
inductive UnaryOp.Rule where
  | negation
  /-- The operator is changed for its dual, and the operand negated. -/
  | dual (op : UnaryOp)
  /-- The negation stays above the operator. -/
  | kept

def UnaryOp.rule : UnaryOp → UnaryOp.Rule
  | .not => .negation
  | .next => .dual .next
  | .globally => .dual .eventually
  | .eventually => .dual .globally
  | .once => .dual .historically
  | .historically => .dual .once
  | .previous => .kept

/-- What becomes of an operator with two operands when a negation passes it. -/
inductive BinaryOp.Rule where
  /-- The operator is changed for its dual, and the operands negated. -/
  | dual (op : BinaryOp)
  /-- The operator is a disjunction whose first operand is negated. -/
  | implication
  /-- The operands are the same, or different. -/
  | comparison (different : Bool)
  /-- The negation stays above the operator. -/
  | kept

def BinaryOp.rule : BinaryOp → BinaryOp.Rule
  | .and => .dual .or
  | .or => .dual .and
  | .untl => .dual .releases
  | .releases => .dual .untl
  | .implies => .implication
  | .iff => .comparison false
  | .xor => .comparison true
  | .since | .reserved _ => .kept

namespace Formula

def negateIf (negated : Bool) (f : Formula) : Formula :=
  if negated then .unary .not f else f

def eitherPair (f g f' g' : Formula) : Formula :=
  .binary .or (.binary .and f g) (.binary .and f' g')

/-- The normal form of a formula, or of its negation. -/
def normalise (negated : Bool) : Formula → Formula
  | .atom e => negateIf negated (.atom e)
  | .unary op f =>
    match op.rule with
    | .negation => f.normalise (!negated)
    | .dual op' => .unary (if negated then op' else op) (f.normalise negated)
    | .kept => negateIf negated (.unary op (f.normalise false))
  | .binary op f g =>
    match op.rule with
    | .dual op' => .binary (if negated then op' else op) (f.normalise negated) (g.normalise negated)
    | .implication =>
      .binary (if negated then .and else .or) (f.normalise (!negated)) (g.normalise negated)
    | .comparison different =>
      eitherPair (f.normalise false) (g.normalise (negated != different))
        (f.normalise true) (g.normalise (negated == different))
    | .kept => negateIf negated (.binary op (f.normalise false) (g.normalise false))

def normal (f : Formula) : Formula := f.normalise false

def negation (f : Formula) : Formula := f.normalise true

end Formula

end Lasso
