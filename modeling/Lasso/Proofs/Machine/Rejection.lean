import Lasso.Proofs.Machine.Conversion

/-! # Expressions that are no conditions

Why an expression is no condition depends on the declared variables, and on nothing else that was
made before.
-/

namespace Lasso

set_option autoImplicit false

namespace Encoding

variable {α ε : Type}

def reason? {β : Type} : Except ε β → Option ε
  | .ok _ => none
  | .error err => some err

theorem reason?_mapError {β δ : Type} (r : Except ε β) (blame : ε → δ) :
    reason? (r.mapError blame) = (reason? r).map blame := by
  cases r <;> rfl

theorem reason?_connect {e : Encoding} (c : Connective) (ls : List Lit) :
    reason? ((connect c false ls).run e).1 = c.fault? ls.length := by
  rw [connect_run c fun _ => rfl]
  cases c.fault? ls.length <;> rfl

theorem conditionName?_congr {e e' : Encoding} (h : e'.vars = e.vars) (name : String) :
    e'.conditionName? name = e.conditionName? name := by
  unfold conditionName? lookup?
  rw [h]

theorem vars_connect {e : Encoding} (c : Connective) (ls : List Lit) :
    ((connect c false ls).run e).2.vars = e.vars := by
  rw [connect_run c fun _ => rfl]
  cases c.fault? ls.length <;> rfl

mutual

theorem vars_condition {e : Encoding} : (x : SExpr α) →
    ((condition false x).run e).2.vars = e.vars
  | .symbol note name => by rw [condition_symbol_eq]
  | .list note (.symbol note' name :: args) => by
    have hargs := vars_conditions (e := e) args
    rw [condition_list_eq]
    generalize (conditions false args).run e = r at hargs
    obtain ⟨r, e₁⟩ := r
    cases r with
    | error err => exact hargs
    | ok ls =>
      cases Connective.ofName? name with
      | none => exact hargs
      | some c => exact (vars_connect c ls).trans hargs
  | .list _ [] => by rw [condition_nil_eq]
  | .list _ (.list _ _ :: _) => by rw [condition_nested_eq]

theorem vars_conditions {e : Encoding} : (xs : List (SExpr α)) →
    ((conditions false xs).run e).2.vars = e.vars
  | [] => by
    rw [conditions]
    rfl
  | x :: xs => by
    have hx := vars_condition (e := e) x
    rw [conditions_cons_eq]
    generalize (condition false x).run e = r at hx
    obtain ⟨r, e₁⟩ := r
    cases r with
    | error err => exact hx
    | ok l => exact (vars_conditions xs).trans hx

end

theorem length_conditions {e : Encoding} {p : Bool} {xs : List (SExpr α)} {ls : List Lit}
    (h : ((conditions p xs).run e).1 = .ok ls) : ls.length = xs.length := by
  induction xs generalizing e ls with
  | nil =>
    rw [conditions] at h
    cases h
    rfl
  | cons x xs ih =>
    rw [conditions_cons_eq] at h
    generalize (condition p x).run e = r at h
    obtain ⟨r, e₁⟩ := r
    cases r with
    | error err => cases h
    | ok l =>
      cases hrest : ((conditions p xs).run e₁).1 with
      | error err =>
        dsimp only at h
        rw [hrest] at h
        cases h
      | ok ls' =>
        dsimp only at h
        rw [hrest] at h
        cases h
        exact congrArg (· + 1) (ih hrest)

mutual

theorem reason?_condition {e e' : Encoding} (h : e'.vars = e.vars) : (x : SExpr α) →
    reason? ((condition false x).run e').1 = reason? ((condition false x).run e).1
  | .symbol note name => by
    rw [condition_symbol_eq, condition_symbol_eq, conditionName?_congr h]
  | .list note (.symbol note' name :: args) => by
    have hargs := reason?_conditions h args
    have hlength := @length_conditions _ e false args
    have hlength' := @length_conditions _ e' false args
    rw [condition_list_eq, condition_list_eq]
    generalize (conditions false args).run e = r at hargs hlength
    generalize (conditions false args).run e' = r' at hargs hlength'
    obtain ⟨r, e₁⟩ := r
    obtain ⟨r', e₁'⟩ := r'
    cases r <;> cases r' <;> cases hargs
    · rfl
    · rename_i ls ls'
      cases Connective.ofName? name with
      | none => rfl
      | some c =>
        dsimp only
        rw [reason?_mapError, reason?_mapError, reason?_connect, reason?_connect,
          hlength rfl, hlength' rfl]
  | .list _ [] => by rw [condition_nil_eq, condition_nil_eq]
  | .list _ (.list _ _ :: _) => by rw [condition_nested_eq, condition_nested_eq]

theorem reason?_conditions {e e' : Encoding} (h : e'.vars = e.vars) : (xs : List (SExpr α)) →
    reason? ((conditions false xs).run e').1 = reason? ((conditions false xs).run e).1
  | [] => by
    rw [conditions]
    rfl
  | x :: xs => by
    have hx := reason?_condition h x
    have hvars := (vars_condition x).trans (h.trans (vars_condition x).symm)
    rw [conditions_cons_eq, conditions_cons_eq]
    generalize (condition false x).run e = r at hx hvars
    generalize (condition false x).run e' = r' at hx hvars
    obtain ⟨r, e₁⟩ := r
    obtain ⟨r', e₁'⟩ := r'
    cases r <;> cases r' <;> cases hx
    · rfl
    · have hrest := reason?_conditions hvars xs
      dsimp only at hrest ⊢
      generalize ((conditions false xs).run e₁).1 = q at hrest ⊢
      generalize ((conditions false xs).run e₁').1 = q' at hrest ⊢
      cases q <;> cases q' <;> cases hrest <;> rfl

end

end Encoding

end Lasso
