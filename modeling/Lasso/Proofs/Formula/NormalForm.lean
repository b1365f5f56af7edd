import Lasso.Proofs.Formula.Fragment
import Lasso.Proofs.Formula.Word

/-! # The shape of normal forms

In a normal form conjunction and disjunction are the only boolean connectives, and a negation stands
directly above an atomic proposition or an operator without a dual.
-/

namespace Lasso

set_option autoImplicit false

/-- The operators of two operands that have a meaning. -/
def BinaryOp.isStandard : BinaryOp → Bool
  | .reserved _ => false
  | _ => true

/-- The operators of two operands in normal forms. -/
def BinaryOp.isNormal : BinaryOp → Bool
  | .and | .or | .untl | .releases | .since => true
  | _ => false

namespace Formula

def isStandard : Formula → Bool
  | atom _ => true
  | unary _ f => f.isStandard
  | binary op f g => op.isStandard && (f.isStandard && g.isStandard)

/-- What a negation can stand above in a normal form. -/
def isNegatable : Formula → Bool
  | atom _ => true
  | unary op _ => op == .previous
  | binary op _ _ => op == .since

/-- The shape of normal forms. -/
def isNormal : Formula → Bool
  | atom _ => true
  | unary op f => (op != .not || f.isNegatable) && f.isNormal
  | binary op f g => op.isNormal && (f.isNormal && g.isNormal)

theorem isNormal_negateIf {f : Formula} (hf : f.isNormal) (hneg : f.isNegatable) (negated : Bool) :
    (f.negateIf negated).isNormal := by
  cases negated with
  | false => exact hf
  | true => exact Bool.and_eq_true_iff.2 ⟨hneg, hf⟩

theorem isNormal_eitherPair {f g f' g' : Formula} (hf : f.isNormal) (hg : g.isNormal)
    (hf' : f'.isNormal) (hg' : g'.isNormal) : (eitherPair f g f' g').isNormal := by
  simp only [eitherPair, isNormal, hf, hg, hf', hg']
  rfl

theorem isNormal_dual {op dual : BinaryOp} (h : op.rule = .dual dual) (negated : Bool) :
    (if negated then dual else op).isNormal := by
  cases op <;> cases h <;> cases negated <;> rfl

theorem ne_not_dual {op dual : UnaryOp} (h : op.rule = .dual dual) (negated : Bool) :
    ((if negated then dual else op) != .not) = true := by
  cases op <;> cases h <;> cases negated <;> rfl

/-- Normal forms have their shape, whether of a formula or of its negation. -/
theorem isNormal_normalise {f : Formula} (h : f.isStandard) (negated : Bool) :
    (f.normalise negated).isNormal := by
  induction f generalizing negated with
  | atom e => exact isNormal_negateIf rfl rfl negated
  | unary op f ih =>
    rw [normalise]
    split
    · exact ih h (!negated)
    · rename_i dual hrule
      rw [isNormal, ne_not_dual hrule, Bool.true_or, Bool.true_and]
      exact ih h negated
    · rename_i hrule
      obtain rfl : op = .previous := by
        cases op with
        | previous => rfl
        | _ => cases hrule
      exact isNormal_negateIf (f := .unary .previous _) (ih h false) rfl negated
  | binary op f g ihf ihg =>
    simp only [isStandard, Bool.and_eq_true] at h
    obtain ⟨hop, hf, hg⟩ := h
    rw [normalise]
    split
    · rename_i dual hrule
      rw [isNormal, isNormal_dual hrule, ihf hf, ihg hg]
      rfl
    · rw [isNormal, ihf hf, ihg hg]
      cases negated <;> rfl
    · exact isNormal_eitherPair (ihf hf _) (ihg hg _) (ihf hf _) (ihg hg _)
    · rename_i hrule
      obtain rfl : op = .since := by
        cases op with
        | since => rfl
        | reserved i => cases hop
        | _ => cases hrule
      refine isNormal_negateIf ?_ rfl negated
      rw [isNormal, ihf hf, ihg hg]
      rfl

end Formula

namespace Table

/-- What a table makes of a formula and of its negation has the shape of normal forms, and holds
where the formula does, or does not, at every position of every word. -/
theorem isNormal_and_holds_iff {f : Formula} (hf : f.isStandard) (t : Table) :
    (Table.normal f t).1.isNormal ∧ (Table.negation f t).1.isNormal ∧
      ∀ (p : Nat → Expr → Prop) (n : Nat),
        ((Table.normal f t).1.Holds p n ↔ f.Holds p n) ∧
          ((Table.negation f t).1.Holds p n ↔ ¬ f.Holds p n) := by
  rw [normal_fst, negation_fst]
  exact ⟨Formula.isNormal_normalise hf false, Formula.isNormal_normalise hf true, fun p n =>
    ⟨Formula.holds_normalise p f false n, Formula.holds_negation p f n⟩⟩

/-- A comparison of the past with what holds until something does, beneath a negation. -/
theorem isNormal_and_holds_iff_comparison :
    let p : Formula := .atom (.symbol () "p")
    let f : Formula := .unary .not (.binary .iff (.binary .implies (.unary .previous p)
      (.binary .since p p)) (.unary .historically (.binary .untl p (.unary .not p))))
    f.isStandard ∧ (Table.normal f {}).1.isNormal ∧ (Table.negation f {}).1.isNormal ∧
      ∀ (q : Nat → Expr → Prop) (n : Nat),
        ((Table.normal f {}).1.Holds q n ↔ f.Holds q n) ∧
          ((Table.negation f {}).1.Holds q n ↔ ¬ f.Holds q n) :=
  ⟨rfl, isNormal_and_holds_iff rfl {}⟩

end Table

end Lasso
