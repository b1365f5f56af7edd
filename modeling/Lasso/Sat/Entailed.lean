import Std.Data.HashSet
import Lasso.Graph.Clauses

/-! # Entailed clauses

A clause together with the fact that a clausal problem entails it.  A new one is derived from
others by unit propagation: once all its literals are false, they cannot all hold.  If they cannot
all hold anyway, the problem has no model.
-/

namespace Lasso

set_option autoImplicit false

/-- The answer to a clausal problem, with what makes it right. -/
inductive Verdict (f : Cnf) where
  | sat (ρ : Assignment) (satisfies : f.eval ρ = true)
  | unsat (refuted : ∀ ρ, f.eval ρ = false)

structure Entailed (f : Cnf) where
  clause : Clause
  entailed : ∀ ρ, f.eval ρ = true → clause.eval ρ = true

theorem Lit.eval_not (ρ : Assignment) (l : Lit) : l.not.eval ρ = !l.eval ρ := by
  simp [Lit.not, Lit.eval]

theorem Clause.eval_eq_true_iff {ρ : Assignment} {c : Clause} :
    c.eval ρ = true ↔ ∃ l ∈ c, l.eval ρ = true := by
  simp [Clause.eval]

theorem Cnf.eval_eq_true_iff {ρ : Assignment} {f : Cnf} :
    f.eval ρ = true ↔ ∀ c ∈ f, c.eval ρ = true := by
  simp [Cnf.eval]

namespace Entailed

variable {f : Cnf}

def ofMem (c : Clause) (h : c ∈ f) : Entailed f :=
  ⟨c, fun _ hρ => Cnf.eval_eq_true_iff.1 hρ c h⟩

/-- Whether some clauses, each of which has at most one literal left that may be true when it is
reached, cannot all hold while some literals are false. -/
def clash (falsified : Std.HashSet Lit) : List (Entailed f) → Bool
  | [] => false
  | d :: ds =>
    match d.clause.filter (!falsified.contains ·) with
    | [] => true
    | [l] => clash (falsified.insert l.not) ds
    | _ => clash falsified ds

theorem clash_eq_false {ρ : Assignment} {falsified : Std.HashSet Lit} {ds : List (Entailed f)}
    (holds : f.eval ρ = true) (h : ∀ l ∈ falsified, l.eval ρ = false) :
    clash falsified ds = false := by
  induction ds generalizing falsified with
  | nil => rfl
  | cons d ds ih =>
    obtain ⟨m, hm, mtrue⟩ := Clause.eval_eq_true_iff.1 (d.entailed ρ holds)
    have left : m ∈ d.clause.filter (!falsified.contains ·) := by
      refine List.mem_filter.2 ⟨hm, ?_⟩
      cases known : falsified.contains m with
      | false => rfl
      | true => simp [h m (Std.HashSet.contains_iff_mem.1 known)] at mtrue
    unfold clash
    split
    · simp_all
    · rename_i l only
      obtain rfl : m = l := by simpa [only] using left
      refine ih fun n hn => ?_
      rcases Std.HashSet.mem_insert.1 hn with e | hn
      · obtain rfl : m.not = n := by simpa using e
        simp [Lit.eval_not, mtrue]
      · exact h n hn
    · exact ih h

/-- A clause that cannot be violated, by a clash of entailed clauses. -/
def derive? (c : Clause) (ds : List (Entailed f)) : Option (Entailed f) :=
  if h : clash (.ofList c) ds = true then
    some ⟨c, fun ρ holds => by
      cases hc : c.eval ρ with
      | true => rfl
      | false =>
        rw [clash_eq_false holds fun l hl => ?_] at h
        · contradiction
        · simp only [Clause.eval, List.any_eq_false] at hc
          simpa using hc l (by simpa using hl)⟩
  else none

def refute? (ds : List (Entailed f)) : Option (Verdict f) :=
  if h : clash ∅ ds = true then
    some (.unsat fun ρ => by
      cases holds : f.eval ρ with
      | false => rfl
      | true =>
        rw [clash_eq_false holds fun l hl => absurd hl Std.HashSet.not_mem_empty] at h
        contradiction)
  else none

end Entailed

end Lasso
