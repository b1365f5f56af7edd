import Lasso.Graph.Reach
import Lasso.Proofs.Graph.Evaluation

/-! # What an expression depends on

The nodes that are reached beneath some expressions are closed under operands.  So the value of an
expression is determined by the values of the free variables among them.
-/

namespace Lasso

set_option autoImplicit false

namespace Reached

/-- The numbers in order are those that were seen, and with a gate come its operands. -/
structure Closed (g : Graph) (r : Reached) : Prop where
  seen : ∀ v, r.seen.contains v = true ↔ v ∈ r.order
  operands : ∀ v ∈ r.order, ∀ p, g.operands? v = some p →
    (p.1.1.var = 1 ∨ p.1.1.var ∈ r.order) ∧ (p.1.2.var = 1 ∨ p.1.2.var ∈ r.order)
  ne_one : 1 ∉ r.order

theorem closed_empty (g : Graph) : Closed g ∅ where
  seen v := by simp [EmptyCollection.emptyCollection, empty]
  operands v hv := by simp [EmptyCollection.emptyCollection, empty] at hv
  ne_one := by simp [EmptyCollection.emptyCollection, empty]

theorem mem_push_order {r : Reached} {v w : Nat} :
    w ∈ (r.push v).order ↔ w ∈ r.order ∨ w = v := by
  simp [push]

theorem Closed.push {g : Graph} {r : Reached} (h : r.Closed g) {v : Nat} (hv : v ≠ 1)
    (hops : ∀ p, g.operands? v = some p →
      (p.1.1.var = 1 ∨ p.1.1.var ∈ r.order) ∧ (p.1.2.var = 1 ∨ p.1.2.var ∈ r.order)) :
    (r.push v).Closed g where
  seen w := by
    rw [mem_push_order, ← h.seen w]
    simp only [Reached.push, Std.HashSet.contains_insert, Bool.or_eq_true, beq_iff_eq]
    constructor
    · rintro (rfl | hw)
      · exact .inr rfl
      · exact .inl hw
    · rintro (hw | rfl)
      · exact .inr hw
      · exact .inl rfl
  operands w hw p hp := by
    have hold : (p.1.1.var = 1 ∨ p.1.1.var ∈ r.order) ∧ (p.1.2.var = 1 ∨ p.1.2.var ∈ r.order) := by
      rcases mem_push_order.1 hw with hw | rfl
      · exact h.operands w hw p hp
      · exact hops p hp
    exact ⟨hold.1.imp_right fun hm => mem_push_order.2 (.inl hm),
      hold.2.imp_right fun hm => mem_push_order.2 (.inl hm)⟩
  ne_one hone := by
    rcases mem_push_order.1 hone with hone | hone
    · exact h.ne_one hone
    · exact hv hone.symm

end Reached

namespace Graph

theorem visit_closed (g : Graph) (v : Nat) {r : Reached} (h : r.Closed g) :
    (g.visit v r).Closed g ∧ (∀ w ∈ r.order, w ∈ (g.visit v r).order) ∧
      (v = 1 ∨ v ∈ (g.visit v r).order) := by
  induction v using Nat.strongRecOn generalizing r with
  | _ v ih =>
    rw [visit]
    split
    · rename_i hskip
      refine ⟨h, fun w hw => hw, hskip.imp_right fun hseen => (h.seen v).1 hseen⟩
    rename_i hnew
    obtain ⟨hone, -⟩ := not_or.1 hnew
    split
    · rename_i hops
      refine ⟨h.push hone fun p hp => ?_, fun w hw => Reached.mem_push_order.2 (.inl hw),
        .inr (Reached.mem_push_order.2 (.inr rfl))⟩
      rw [hops] at hp
      cases hp
    · rename_i a b hlt hops
      obtain ⟨ha, hkeepa, hina⟩ := ih a.var hlt.1 h
      obtain ⟨hb, hkeepb, hinb⟩ := ih b.var hlt.2 ha
      refine ⟨hb.push hone fun p hp => ?_,
        fun w hw => Reached.mem_push_order.2 (.inl (hkeepb w (hkeepa w hw))),
        .inr (Reached.mem_push_order.2 (.inr rfl))⟩
      rw [hops] at hp
      cases hp
      exact ⟨hina.imp_right (hkeepb _), hinb⟩

theorem le_of_mem_visit (g : Graph) (v : Nat) {r : Reached} {w : Nat}
    (hw : w ∈ (g.visit v r).order) : w ∈ r.order ∨ w ≤ v := by
  induction v using Nat.strongRecOn generalizing r w with
  | _ v ih =>
    rw [visit] at hw
    split at hw
    · exact .inl hw
    split at hw
    · exact (Reached.mem_push_order.1 hw).imp_right Nat.le_of_eq
    · rename_i a b hlt hops
      rcases Reached.mem_push_order.1 hw with hw | rfl
      · rcases ih b.var hlt.2 hw with hw | hw
        · exact (ih a.var hlt.1 hw).imp_right fun h => Nat.le_trans h (Nat.le_of_lt hlt.1)
        · exact .inr (Nat.le_trans hw (Nat.le_of_lt hlt.2))
      · exact .inr (Nat.le_refl _)

theorem reach_fold_closed (g : Graph) (roots : List Lit) {r : Reached} (h : r.Closed g) :
    (roots.foldl (fun r l => g.visit l.var r) r).Closed g ∧
      (∀ w ∈ r.order, w ∈ (roots.foldl (fun r l => g.visit l.var r) r).order) ∧
      ∀ l ∈ roots, l.var = 1 ∨ l.var ∈ (roots.foldl (fun r l => g.visit l.var r) r).order := by
  induction roots generalizing r with
  | nil => exact ⟨h, fun w hw => hw, by simp⟩
  | cons l roots ih =>
    obtain ⟨hl, hkeep, hin⟩ := visit_closed g l.var h
    obtain ⟨hrest, hkeep', hin'⟩ := ih hl
    refine ⟨hrest, fun w hw => hkeep' w (hkeep w hw), fun m hm => ?_⟩
    rcases List.mem_cons.1 hm with rfl | hm
    · exact hin.imp_right (hkeep' _)
    · exact hin' m hm

theorem ne_one_of_mem_reach {g : Graph} {roots : List Lit} {v : Nat} (hv : v ∈ g.reach roots) :
    v ≠ 1 := by
  rintro rfl
  exact (reach_fold_closed g roots (Reached.closed_empty g)).1.ne_one (Array.mem_toList_iff.1 hv)

theorem root_mem_reach (g : Graph) {roots : List Lit} {l : Lit} (hl : l ∈ roots) :
    l.var = 1 ∨ l.var ∈ g.reach roots :=
  ((reach_fold_closed g roots (Reached.closed_empty g)).2.2 l hl).imp_right Array.mem_toList_iff.2

theorem operands_mem_reach {g : Graph} {roots : List Lit} {v : Nat} (hv : v ∈ g.reach roots) {p}
    (hp : g.operands? v = some p) :
    (p.1.1.var = 1 ∨ p.1.1.var ∈ g.reach roots) ∧ (p.1.2.var = 1 ∨ p.1.2.var ∈ g.reach roots) := by
  have h := (reach_fold_closed g roots (Reached.closed_empty g)).1.operands v
    (Array.mem_toList_iff.1 hv) p hp
  exact ⟨h.1.imp_right Array.mem_toList_iff.2, h.2.imp_right Array.mem_toList_iff.2⟩

/-- Assignments that agree on the free variables that are reached agree on all nodes reached. -/
theorem value_congr_of_reach {g : Graph} {roots : List Lit} {ρ σ : Assignment}
    (h : ∀ v ∈ g.reach roots, g.operands? v = none → ρ v = σ v) {v : Nat}
    (hv : v = 1 ∨ v ∈ g.reach roots) : g.value ρ v = g.value σ v := by
  induction v using Nat.strongRecOn with
  | _ v ih =>
    rcases hv with rfl | hv
    · rw [value_one, value_one]
    have hone := ne_one_of_mem_reach hv
    cases hp : g.operands? v with
    | none =>
      rw [value_of_operands?_eq_none hone hp, value_of_operands?_eq_none hone hp]
      exact h v hv hp
    | some p =>
      obtain ⟨ha, hb⟩ := operands_mem_reach hv hp
      rw [value_of_operands?_eq_some hone hp, value_of_operands?_eq_some hone hp]
      simp only [eval]
      rw [ih _ p.2.1 ha, ih _ p.2.2 hb]

theorem mem_support_iff {g : Graph} {l m : Lit} :
    m ∈ g.support l ↔ m = .pos m.var ∧ m.var ∈ g.reach [l] ∧ g.operands? m.var = none := by
  simp only [support, List.mem_map, List.mem_filter, Option.isNone_iff_eq_none]
  constructor
  · rintro ⟨v, hv, rfl⟩
    exact ⟨rfl, hv⟩
  · rintro ⟨hpos, hm⟩
    exact ⟨m.var, hm, hpos.symm⟩

theorem eq_pos_of_mem_support {g : Graph} {l m : Lit} (hl : g.nodes[l.var]? = some .input)
    (hm : m ∈ g.support l) : m = .pos l.var := by
  obtain ⟨hpos, hreach, -⟩ := mem_support_iff.1 hm
  have hvisit : m.var ∈ (g.visit l.var {}).order := Array.mem_toList_iff.1 hreach
  have hnone : ∀ v, v ∉ (∅ : Reached).order := by
    simp [EmptyCollection.emptyCollection, Reached.empty]
  rw [visit] at hvisit
  split at hvisit
  · exact absurd hvisit (hnone m.var)
  · rw [operands?_eq_none_of_input hl] at hvisit
    rw [hpos, (Reached.mem_push_order.1 hvisit).resolve_left (hnone m.var)]

theorem var_le_of_mem_support {g : Graph} {l m : Lit} (hm : m ∈ g.support l) : m.var ≤ l.var := by
  obtain ⟨-, hreach, -⟩ := mem_support_iff.1 hm
  rcases le_of_mem_visit g l.var (Array.mem_toList_iff.1 hreach) with h | h
  · simp [EmptyCollection.emptyCollection, Reached.empty] at h
  · exact h

/-- An expression has the same value under assignments that agree on its support. -/
theorem eval_congr_of_support {g : Graph} {l : Lit} {ρ σ : Assignment}
    (h : ∀ m ∈ g.support l, ρ m.var = σ m.var) : g.eval ρ l = g.eval σ l := by
  have hroot : l.var = 1 ∨ l.var ∈ g.reach [l] := root_mem_reach g List.mem_cons_self
  rw [eval, eval, value_congr_of_reach (fun v hv hops => ?_) hroot]
  exact h (.pos v) (mem_support_iff.2 ⟨rfl, hv, hops⟩)

end Graph

end Lasso
