import Mathlib.Tactic.Common
import Lasso.Formula.Table

/-! # Formulas on infinite words

An infinite word says which atomic propositions hold at which position.  Whether a formula holds at
a position is determined by where its operands hold, and the normal form of a formula, or of its
negation, holds where it should.
-/

namespace Lasso

set_option autoImplicit false

def UnaryOp.Holds (op : UnaryOp) (P : Nat → Prop) (n : Nat) : Prop :=
  match op with
  | .not => ¬ P n
  | .next => P (n + 1)
  | .globally => ∀ m ≥ n, P m
  | .eventually => ∃ m ≥ n, P m
  | .previous => ∃ m, m + 1 = n ∧ P m
  | .once => ∃ m ≤ n, P m
  | .historically => ∀ m ≤ n, P m

/-- The positions at which an operator holds, given those of its operands.  A reserved operator
holds nowhere. -/
def BinaryOp.Holds (op : BinaryOp) (P Q : Nat → Prop) (n : Nat) : Prop :=
  match op with
  | .and => P n ∧ Q n
  | .or => P n ∨ Q n
  | .xor => ¬ (P n ↔ Q n)
  | .implies => P n → Q n
  | .iff => P n ↔ Q n
  | .untl => ∃ m ≥ n, Q m ∧ ∀ j, n ≤ j → j < m → P j
  | .releases => ∀ m ≥ n, Q m ∨ ∃ j, n ≤ j ∧ j < m ∧ P j
  | .since => ∃ m ≤ n, Q m ∧ ∀ j, m < j → j ≤ n → P j
  | .reserved _ => False

theorem UnaryOp.holds_congr (op : UnaryOp) {P P' : Nat → Prop} (h : ∀ n, P n ↔ P' n) (n : Nat) :
    op.Holds P n ↔ op.Holds P' n := by
  rw [funext fun n => propext (h n)]

theorem BinaryOp.holds_congr (op : BinaryOp) {P P' Q Q' : Nat → Prop} (hP : ∀ n, P n ↔ P' n)
    (hQ : ∀ n, Q n ↔ Q' n) (n : Nat) : op.Holds P Q n ↔ op.Holds P' Q' n := by
  rw [funext fun n => propext (hP n), funext fun n => propext (hQ n)]

theorem UnaryOp.holds_dual {op dual : UnaryOp} (h : op.rule = .dual dual) (P : Nat → Prop)
    (n : Nat) : dual.Holds (fun m => ¬ P m) n ↔ ¬ op.Holds P n := by
  cases op <;> cases h <;> simp [Holds]

theorem BinaryOp.holds_dual {op dual : BinaryOp} (h : op.rule = .dual dual) (P Q : Nat → Prop)
    (n : Nat) : dual.Holds (fun m => ¬ P m) (fun m => ¬ Q m) n ↔ ¬ op.Holds P Q n := by
  cases op <;> cases h <;> simp only [Holds]
  · exact not_and_or.symm
  · exact not_or.symm
  · push Not
    refine forall₂_congr fun m hm => ?_
    rw [imp_iff_not_or]
  · push Not
    exact Iff.rfl

namespace Formula

/-- The formula holds at a position of a word. -/
def Holds (p : Nat → Expr → Prop) : Formula → Nat → Prop
  | .atom e, n => p n e
  | .unary op f, n => op.Holds (f.Holds p) n
  | .binary op f g, n => op.Holds (f.Holds p) (g.Holds p) n

/-- The normal form of a formula holds where the formula does, and that of its negation where the
formula does not. -/
theorem holds_normalise (p : Nat → Expr → Prop) (f : Formula) (negated : Bool) (n : Nat) :
    (f.normalise negated).Holds p n ↔ (if negated then ¬ f.Holds p n else f.Holds p n) := by
  have hnegate : ∀ (g : Formula) (b : Bool) (m : Nat),
      (g.negateIf b).Holds p m ↔ (if b then ¬ g.Holds p m else g.Holds p m) := by
    intro g b m
    cases b <;> exact Iff.rfl
  -- both polarities at once, as a negation on the way down exchanges them
  induction f generalizing negated n with
  | atom e => exact hnegate _ negated n
  | unary op f ih =>
    rw [normalise]
    split
    · rename_i hrule
      obtain rfl : op = .not := by
        cases op with
        | not => rfl
        | _ => cases hrule
      refine (ih (!negated) n).trans ?_
      cases negated <;> simp [Holds, UnaryOp.Holds]
    · rename_i dual hrule
      cases negated with
      | false => exact op.holds_congr (fun m => ih false m) n
      | true => exact (dual.holds_congr (fun m => ih true m) n).trans (UnaryOp.holds_dual hrule _ n)
    · rw [hnegate]
      have hsame := op.holds_congr (fun m => ih false m) n
      cases negated with
      | false => exact hsame
      | true => exact not_congr hsame
  | binary op f g ihf ihg =>
    rw [normalise]
    split
    · rename_i dual hrule
      cases negated with
      | false => exact op.holds_congr (fun m => ihf false m) (fun m => ihg false m) n
      | true =>
        exact (dual.holds_congr (fun m => ihf true m) (fun m => ihg true m) n).trans
          (BinaryOp.holds_dual hrule _ _ n)
    · rename_i hrule
      obtain rfl : op = .implies := by
        cases op with
        | implies => rfl
        | _ => cases hrule
      cases negated with
      | false =>
        change (f.normalise true).Holds p n ∨ (g.normalise false).Holds p n ↔ _
        exact (or_congr (ihf true n) (ihg false n)).trans imp_iff_not_or.symm
      | true =>
        change (f.normalise false).Holds p n ∧ (g.normalise true).Holds p n ↔ _
        exact (and_congr (ihf false n) (ihg true n)).trans Classical.not_imp.symm
    · rename_i different hrule
      change ((f.normalise false).Holds p n ∧ (g.normalise (negated != different)).Holds p n) ∨
        ((f.normalise true).Holds p n ∧ (g.normalise (negated == different)).Holds p n) ↔ _
      refine (or_congr (and_congr (ihf false n) (ihg (negated != different) n))
        (and_congr (ihf true n) (ihg (negated == different) n))).trans ?_
      cases op <;> cases hrule <;> cases negated <;> simp [Holds, BinaryOp.Holds] <;> tauto
    · rw [hnegate]
      have hsame := op.holds_congr (fun m => ihf false m) (fun m => ihg false m) n
      cases negated with
      | false => exact hsame
      | true => exact not_congr hsame

theorem holds_negation (p : Nat → Expr → Prop) (f : Formula) (n : Nat) :
    f.negation.Holds p n ↔ ¬ f.Holds p n :=
  holds_normalise p f true n

end Formula

end Lasso
