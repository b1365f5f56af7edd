import Lasso.Sat.Entailed

/-! # Exhaustive search

Every assignment to the variables of a problem is tried in turn.  This settles any problem, and is
the last resort of the search.
-/

namespace Lasso

set_option autoImplicit false

namespace Cnf

def update (ρ : Assignment) (v : Nat) (b : Bool) : Assignment := fun w => if w = v then b else ρ w

def findBelow (f : Cnf) : Nat → Assignment → Option { ρ : Assignment // f.eval ρ = true }
  | 0, ρ => if h : f.eval ρ = true then some ⟨ρ, h⟩ else none
  | bound + 1, ρ =>
    (f.findBelow bound (update ρ bound false)).or (f.findBelow bound (update ρ bound true))

theorem eval_eq_false_of_findBelow {f : Cnf} {bound : Nat} {ρ σ : Assignment}
    (h : f.findBelow bound ρ = none) (agree : ∀ v, bound ≤ v → σ v = ρ v) : f.eval σ = false := by
  induction bound generalizing ρ with
  | zero =>
    have : σ = ρ := funext fun v => agree v (Nat.zero_le v)
    subst this
    simp only [findBelow] at h
    split at h <;> simp_all
  | succ bound ih =>
    simp only [findBelow, Option.or_eq_none_iff] at h
    cases hb : σ bound with
    | false =>
      refine ih h.1 fun v hv => ?_
      by_cases hvb : v = bound
      · simp [update, hvb, hb]
      · simp [update, hvb, agree v (by omega)]
    | true =>
      refine ih h.2 fun v hv => ?_
      by_cases hvb : v = bound
      · simp [update, hvb, hb]
      · simp [update, hvb, agree v (by omega)]

theorem eval_congr {f : Cnf} {ρ σ : Assignment} (h : ∀ v ≤ f.maxVar, ρ v = σ v) :
    f.eval ρ = f.eval σ := by
  induction f with
  | nil => rfl
  | cons c f ih =>
    have hc : c.eval ρ = c.eval σ := by
      have hle : ∀ v ≤ c.maxVar, ρ v = σ v := fun v hv =>
        h v (Nat.le_trans hv (Nat.le_max_left _ _))
      clear h ih
      induction c with
      | nil => rfl
      | cons l c ih =>
        have hl := hle l.var (Nat.le_max_left _ _)
        have := ih fun v hv => hle v (Nat.le_trans hv (Nat.le_max_right _ _))
        simp_all [Clause.eval, Lit.eval]
    have := ih fun v hv => h v (Nat.le_trans hv (Nat.le_max_right _ _))
    simp_all [eval]

def exhaust (f : Cnf) : Verdict f :=
  match h : f.findBelow (f.maxVar + 1) (fun _ => false) with
  | some ⟨ρ, hρ⟩ => .sat ρ hρ
  | none => .unsat fun σ => by
    rw [eval_congr (σ := fun v => if v ≤ f.maxVar then σ v else false) (by simp +contextual)]
    exact eval_eq_false_of_findBelow h fun v hv => if_neg (by omega)

end Cnf

end Lasso
