import Mathlib.Tactic.Common
import Lasso.Formula.Table

/-! # Fragments of the logic

Normal forms stay within the operators and the atomic propositions of a formula, up to duality, so
fragments that are given by the operators and by how they nest are closed under them.
-/

namespace Lasso

set_option autoImplicit false

/-- The operators about the present and the future. -/
def UnaryOp.isFuture : UnaryOp → Bool
  | .not | .next | .globally | .eventually => true
  | _ => false

def BinaryOp.isFuture : BinaryOp → Bool
  | .since | .reserved _ => false
  | _ => true

/-- The operators that are unfolded step by step: until, and its dual. -/
def BinaryOp.isUnfolded : BinaryOp → Bool
  | .untl | .releases => true
  | _ => false

namespace Formula

def isFuture : Formula → Bool
  | atom _ => true
  | unary op f => op.isFuture && f.isFuture
  | binary op f g => op.isFuture && (f.isFuture && g.isFuture)

def atoms : Formula → List Expr
  | atom e => [e]
  | unary _ f => f.atoms
  | binary _ f g => f.atoms ++ g.atoms

/-- Neither until nor its dual occurs. -/
def isFolded : Formula → Bool
  | atom _ => true
  | unary _ f => f.isFolded
  | binary op f g => !op.isUnfolded && (f.isFolded && g.isFolded)

/-- Neither until nor its dual occurs beneath a temporal operator. -/
def isFlat : Formula → Bool
  | atom _ => true
  | unary op f => if op.isTemporal then f.isFolded else f.isFlat
  | binary op f g =>
    if op.isTemporal then f.isFolded && g.isFolded else f.isFlat && g.isFlat

theorem isFuture_normalise {f : Formula} (h : f.isFuture) (negated : Bool) :
    (f.normalise negated).isFuture := by
  induction f generalizing negated with
  | atom e => cases negated <;> rfl
  | unary op f ih =>
    simp only [isFuture, Bool.and_eq_true] at h
    cases op <;> cases h.1 <;> cases negated <;>
      simp [normalise, UnaryOp.rule, isFuture, UnaryOp.isFuture, ih h.2]
  | binary op f g ihf ihg =>
    simp only [isFuture, Bool.and_eq_true] at h
    cases op <;> cases h.1 <;> cases negated <;>
      simp [normalise, BinaryOp.rule, eitherPair, isFuture, BinaryOp.isFuture, ihf h.2.1, ihg h.2.2]

theorem mem_atoms_normalise {f : Formula} {e : Expr} {negated : Bool}
    (h : e ∈ (f.normalise negated).atoms) : e ∈ f.atoms := by
  have hnegate : ∀ (g : Formula) (b : Bool), (g.negateIf b).atoms = g.atoms := by
    intro g b
    cases b <;> rfl
  induction f generalizing negated with
  | atom e' => rwa [normalise, hnegate] at h
  | unary op f ih =>
    rw [normalise] at h
    split at h
    · exact ih h
    · exact ih h
    · rw [hnegate] at h
      exact ih h
  | binary op f g ihf ihg =>
    rw [normalise] at h
    rw [atoms, List.mem_append]
    split at h
    · exact (List.mem_append.1 h).imp ihf ihg
    · exact (List.mem_append.1 h).imp ihf ihg
    · rcases List.mem_append.1 h with h | h
      · exact (List.mem_append.1 h).imp ihf ihg
      · exact (List.mem_append.1 h).imp ihf ihg
    · rw [hnegate] at h
      exact (List.mem_append.1 h).imp ihf ihg

theorem isFolded_normalise {f : Formula} (h : f.isFolded) (negated : Bool) :
    (f.normalise negated).isFolded := by
  induction f generalizing negated with
  | atom e => cases negated <;> rfl
  | unary op f ih =>
    cases op <;> cases negated <;>
      simp [normalise, UnaryOp.rule, negateIf, isFolded, ih h]
  | binary op f g ihf ihg =>
    simp only [isFolded, Bool.and_eq_true] at h
    cases op <;> cases negated <;>
      simp_all [normalise, BinaryOp.rule, negateIf, eitherPair, isFolded, BinaryOp.isUnfolded]

theorem isFlat_normalise {f : Formula} (h : f.isFlat) (negated : Bool) :
    (f.normalise negated).isFlat := by
  induction f generalizing negated with
  | atom e => cases negated <;> rfl
  | unary op f ih =>
    cases op <;> cases negated <;>
      simp_all [normalise, UnaryOp.rule, negateIf, isFlat, UnaryOp.isTemporal, isFolded_normalise]
  | binary op f g ihf ihg =>
    cases op <;> cases negated <;>
      simp_all [normalise, BinaryOp.rule, negateIf, eitherPair, isFlat, BinaryOp.isTemporal,
        UnaryOp.isTemporal, isFolded_normalise]

end Formula

theorem Table.negation_fst (f : Formula) (t : Table) : (Table.negation f t).1 = f.negation :=
  ((Table.normalise true f) {} t).1.1.2

theorem Table.normal_fst (f : Formula) (t : Table) : (Table.normal f t).1 = f.normal :=
  ((Table.normalise false f) {} t).1.1.2

end Lasso
