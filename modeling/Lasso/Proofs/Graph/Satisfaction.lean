import Lasso.Sat.Solver
import Lasso.Proofs.Graph.Support

/-! # Solving expressions of a graph

A model of the clauses gives every node that is reached the value that the graph computes for it.
Conversely the values of all nodes are a model wherever the expressions hold.  So the solver answers
exactly whether some expressions can hold together.
-/

namespace Lasso

set_option autoImplicit false

namespace Graph

theorem eval_gateClauses {ρ : Assignment} {v : Nat} {a b : Lit} :
    Cnf.eval ρ (gateClauses v a b) = true ↔ ρ v = (a.eval ρ && b.eval ρ) := by
  simp only [gateClauses, Cnf.eval, Clause.eval, List.all_cons, List.any_cons, List.all_nil,
    List.any_nil, Lit.eval_not, Bool.or_false, Bool.and_true]
  simp only [Lit.eval, Lit.var_pos, Lit.negated_pos]
  cases ρ v <;> cases (a.negated ^^ ρ a.var) <;> cases (b.negated ^^ ρ b.var) <;> simp

theorem mem_gatesBelow_iff {g : Graph} {roots : List Lit} {v : Nat} {a b : Lit} :
    (v, a, b) ∈ g.gatesBelow roots ↔
      v ∈ g.reach roots ∧ ∃ hlt, g.operands? v = some ⟨(a, b), hlt⟩ := by
  simp only [gatesBelow, List.mem_filterMap, Option.map_eq_some_iff]
  constructor
  · rintro ⟨w, hw, ⟨⟨c, d⟩, hlt⟩, hp, heq⟩
    cases heq
    exact ⟨hw, hlt, hp⟩
  · rintro ⟨hv, hlt, hp⟩
    exact ⟨v, hv, _, hp, rfl⟩

theorem eval_definitions {g : Graph} {roots : List Lit} {ρ : Assignment} :
    Cnf.eval ρ (g.definitions roots) = true ↔
      ρ 1 = true ∧ ∀ v ∈ g.reach roots, ∀ p, g.operands? v = some p →
        ρ v = (p.1.1.eval ρ && p.1.2.eval ρ) := by
  rw [Cnf.eval_eq_true_iff]
  simp only [definitions, List.mem_cons, List.mem_flatMap]
  constructor
  · intro h
    constructor
    · simpa [Clause.eval, Lit.eval, truth] using h [truth] (.inl rfl)
    · rintro v hv ⟨⟨a, b⟩, hlt⟩ hp
      refine eval_gateClauses.1 (Cnf.eval_eq_true_iff.2 fun c hc => ?_)
      exact h c (.inr ⟨(v, a, b), mem_gatesBelow_iff.2 ⟨hv, hlt, hp⟩, hc⟩)
  · rintro ⟨hone, hgates⟩ c (rfl | ⟨⟨v, a, b⟩, hmem, hc⟩)
    · simpa [Clause.eval, Lit.eval, truth] using hone
    · obtain ⟨hv, hlt, hp⟩ := mem_gatesBelow_iff.1 hmem
      exact Cnf.eval_eq_true_iff.1 (eval_gateClauses.2 (hgates v hv _ hp)) c hc

theorem eval_assertions {ρ : Assignment} {units roots : List Lit}
    (hunits : ∀ l ∈ units, l.eval ρ = true) :
    Cnf.eval ρ (assertions units roots) = true ↔ ∀ l ∈ roots, l.eval ρ = true := by
  induction roots generalizing units with
  | nil => simp [assertions, Cnf.eval]
  | cons l roots ih =>
    rw [assertions, List.forall_mem_cons]
    split
    · rename_i hl
      rw [ih hunits]
      exact (and_iff_right (hunits l hl)).symm
    split
    · rename_i hl
      have hfalse : l.eval ρ = false := by
        simpa [Lit.eval_not] using hunits _ hl
      simp [Cnf.eval, Clause.eval, hfalse]
    · cases hl : l.eval ρ with
      | false => simp [Cnf.eval, Clause.eval, hl]
      | true =>
        have hunits' : ∀ m ∈ l :: units, m.eval ρ = true := by
          intro m hm
          rcases List.mem_cons.1 hm with rfl | hm
          · exact hl
          · exact hunits m hm
        have hrest := ih hunits'
        simpa [Cnf.eval, Clause.eval, hl] using hrest

theorem eval_clauses {g : Graph} {roots : List Lit} {ρ : Assignment} :
    Cnf.eval ρ (g.clauses roots) = true ↔
      (ρ 1 = true ∧ ∀ v ∈ g.reach roots, ∀ p, g.operands? v = some p →
        ρ v = (p.1.1.eval ρ && p.1.2.eval ρ)) ∧ ∀ l ∈ roots, l.eval ρ = true := by
  have happend : Cnf.eval ρ (g.clauses roots) =
      (Cnf.eval ρ (g.definitions roots) && Cnf.eval ρ (assertions [truth] roots)) := by
    simp [clauses, Cnf.eval, List.all_append]
  rw [happend, Bool.and_eq_true, eval_definitions]
  apply and_congr_right
  rintro ⟨hone, -⟩
  apply eval_assertions
  intro l hl
  rw [List.mem_singleton.1 hl]
  simpa [Lit.eval, truth] using hone

/-- A model of the clauses agrees with the graph on every node reached. -/
theorem value_eq_of_eval_clauses {g : Graph} {roots : List Lit} {ρ : Assignment}
    (h : Cnf.eval ρ (g.clauses roots) = true) {v : Nat} (hv : v = 1 ∨ v ∈ g.reach roots) :
    g.value ρ v = ρ v := by
  obtain ⟨⟨hone, hgates⟩, -⟩ := eval_clauses.1 h
  induction v using Nat.strongRecOn with
  | _ v ih =>
    rcases hv with rfl | hv
    · rw [value_one, hone]
    have hne := ne_one_of_mem_reach hv
    cases hp : g.operands? v with
    | none => exact value_of_operands?_eq_none hne hp ρ
    | some p =>
      obtain ⟨ha, hb⟩ := operands_mem_reach hv hp
      rw [value_of_operands?_eq_some hne hp, hgates v hv p hp]
      simp only [eval, Lit.eval]
      rw [ih _ p.2.1 ha, ih _ p.2.2 hb]

/-- The solver is sound: the expressions hold under the values it gives. -/
theorem eval_of_solve [Solver] {g : Graph} {roots : List Lit} {ρ : Assignment}
    (h : g.solve roots = some ρ) {l : Lit} (hl : l ∈ roots) : g.eval ρ l = true := by
  have hmodel := Solver.eval_of_model? h
  have hl' := (eval_clauses.1 hmodel).2 l hl
  rw [eval, value_eq_of_eval_clauses hmodel (root_mem_reach g hl)]
  exact hl'

/-- The solver is complete: if it gives no values, there are none. -/
theorem exists_eval_eq_false_of_solve [Solver] {g : Graph} {roots : List Lit}
    (h : g.solve roots = none) (ρ : Assignment) : ∃ l ∈ roots, g.eval ρ l = false := by
  by_contra hall
  have htrue : ∀ l ∈ roots, g.eval ρ l = true := by
    intro l hl
    by_contra hne
    exact hall ⟨l, hl, by simpa using hne⟩
  have hsat : Cnf.eval (g.value ρ) (g.clauses roots) = true := by
    refine eval_clauses.2 ⟨⟨value_one g ρ, fun v hv p hp => ?_⟩, htrue⟩
    exact value_of_operands?_eq_some (ne_one_of_mem_reach hv) hp ρ
  rw [Solver.eval_eq_false_of_model? h] at hsat
  cases hsat

end Graph

end Lasso
