import Mathlib.Algebra.Group.Int.Defs
import Mathlib.Algebra.Group.Nat.Defs
import Mathlib.Order.Defs.PartialOrder
import Mathlib.Tactic.Common
import Lasso.Graph.Basic

/-! # The value of expressions in a growing graph

A graph is well-formed if every gate has smaller operands and is found by them.  Constructions keep
this, only ever add nodes, and so leave the value of every earlier expression as it is.
-/

namespace Lasso

set_option autoImplicit false

namespace Lit

@[simp] theorem var_pos (v : Nat) : (Lit.pos v).var = v := rfl

@[simp] theorem negated_pos (v : Nat) : (Lit.pos v).negated = false := rfl

theorem eq_pos_of_negated {l : Lit} (h : l.negated = false) : l = .pos l.var := by
  cases l
  cases h
  rfl

theorem pos_inj {v w : Nat} : Lit.pos v = Lit.pos w ↔ v = w :=
  ⟨congrArg Lit.var, congrArg Lit.pos⟩

@[simp] theorem var_not (l : Lit) : l.not.var = l.var := rfl

@[simp] theorem var_flipIf (c : Bool) (l : Lit) : (l.flipIf c).var = l.var := rfl

end Lit

namespace Graph

instance : Membership Lit Graph := ⟨fun g l => 0 < l.var ∧ l.var < g.size⟩

@[simp] theorem not_mem_iff {g : Graph} {l : Lit} : l.not ∈ g ↔ l ∈ g := Iff.rfl

@[simp] theorem flipIf_mem_iff {g : Graph} {c : Bool} {l : Lit} : l.flipIf c ∈ g ↔ l ∈ g := Iff.rfl

structure WellFormed (g : Graph) : Prop where
  constants : ∀ v : Nat, g.nodes[v]? = some .constant ↔ v < 2
  operands : ∀ (v : Nat) (a b : Lit), g.nodes[v]? = some (.gate a b) →
    (0 < a.var ∧ a.var < v) ∧ 0 < b.var ∧ b.var < v
  gates : ∀ (a b : Lit) (v : Nat), g.gates[(a, b)]? = some v ↔ g.nodes[v]? = some (.gate a b)

/-- One graph is another with nodes added. -/
instance : Preorder Graph where
  le g g' := ∀ v, v < g.size → g'.nodes[v]? = g.nodes[v]?
  le_refl _ _ _ := rfl
  le_trans g₁ g₂ g₃ h₁₂ h₂₃ v hv := by
    have hsome : g₂.nodes[v]? ≠ none := by
      rw [h₁₂ v hv]
      simpa [size] using hv
    have hv₂ : v < g₂.size := by
      simpa [size] using hsome
    exact (h₂₃ v hv₂).trans (h₁₂ v hv)

theorem nodes_eq_of_le {g g' : Graph} (h : g ≤ g') {v : Nat} (hv : v < g.size) :
    g'.nodes[v]? = g.nodes[v]? := h v hv

theorem size_le_of_le {g g' : Graph} (h : g ≤ g') : g.size ≤ g'.size := by
  rcases Nat.eq_zero_or_pos g.size with hz | hpos
  · omega
  · have hlt : g.size - 1 < g.size := by omega
    have hlast : g'.nodes[g.size - 1]? ≠ none := by
      rw [h _ hlt, ne_eq, Array.getElem?_eq_none_iff]
      exact Nat.not_le.2 hlt
    have : g.size - 1 < g'.size := by
      simpa [size] using hlast
    omega

theorem mem_of_le {g g' : Graph} {l : Lit} (h : g ≤ g') (hl : l ∈ g) : l ∈ g' :=
  ⟨hl.1, Nat.lt_of_lt_of_le hl.2 (size_le_of_le h)⟩

theorem WellFormed.two_le_size {g : Graph} (wf : g.WellFormed) : 2 ≤ g.size := by
  have h := (wf.constants 1).2 (by omega)
  have : 1 < g.size := by
    by_contra hge
    simp [size] at hge
    simp [hge] at h
  omega

theorem WellFormed.truth_mem {g : Graph} (wf : g.WellFormed) : truth ∈ g :=
  ⟨Nat.one_pos, wf.two_le_size⟩

theorem WellFormed.falsity_mem {g : Graph} (wf : g.WellFormed) : falsity ∈ g :=
  ⟨Nat.one_pos, wf.two_le_size⟩

theorem wellFormed_empty : (∅ : Graph).WellFormed where
  constants v := by
    change (#[Node.constant, Node.constant] : Array Node)[v]? = some .constant ↔ v < 2
    match v with
    | 0 | 1 => simp
    | v + 2 => simp
  operands v a b h := by
    change (#[Node.constant, Node.constant] : Array Node)[v]? = some (.gate a b) at h
    match v with
    | 0 | 1 => simp at h
    | v + 2 => simp at h
  gates a b v := by
    change (∅ : Std.HashMap (Lit × Lit) Nat)[(a, b)]? = some v ↔
      (#[Node.constant, Node.constant] : Array Node)[v]? = some (.gate a b)
    match v with
    | 0 | 1 => simp
    | v + 2 => simp

theorem operands?_eq_of_le {g g' : Graph} (h : g ≤ g') {v : Nat} (hv : v < g.size) :
    g'.operands? v = g.operands? v := by
  simp only [operands?, node, nodes_eq_of_le h hv]

theorem value_one (g : Graph) (ρ : Assignment) : g.value ρ 1 = true := by
  rw [value]
  simp

theorem value_of_operands?_eq_none {g : Graph} {v : Nat} (hv : v ≠ 1)
    (h : g.operands? v = none) (ρ : Assignment) : g.value ρ v = ρ v := by
  rw [value]
  simp only [if_neg hv]
  split
  · rfl
  · simp_all

theorem value_of_operands?_eq_some {g : Graph} {v : Nat} {p} (hv : v ≠ 1)
    (h : g.operands? v = some p) (ρ : Assignment) :
    g.value ρ v = (g.eval ρ p.1.1 && g.eval ρ p.1.2) := by
  rw [value]
  simp only [if_neg hv]
  split
  · simp_all
  · rename_i a b hab hp
    rw [h] at hp
    cases hp
    rfl

theorem operands?_eq_none_of_input {g : Graph} {v : Nat} (h : g.nodes[v]? = some .input) :
    g.operands? v = none := by
  simp [operands?, node, h]

theorem WellFormed.operands?_eq_some {g : Graph} (wf : g.WellFormed) {v : Nat} {a b : Lit}
    (h : g.nodes[v]? = some (.gate a b)) :
    ∃ hlt, g.operands? v = some ⟨(a, b), hlt⟩ := by
  have hlt := wf.operands v a b h
  exact ⟨⟨hlt.1.2, hlt.2.2⟩, by simp [operands?, node, h, hlt.1.2, hlt.2.2]⟩

theorem nodes_of_operands?_eq_some {g : Graph} {v : Nat} {p} (h : g.operands? v = some p) :
    g.nodes[v]? = some (.gate p.1.1 p.1.2) := by
  unfold operands? at h
  split at h
  · rename_i a b hab
    split at h
    · cases h
      cases hn : g.nodes[v]? <;> simp_all [node]
    · cases h
  · cases h

theorem WellFormed.ne_one_of_gate {g : Graph} (wf : g.WellFormed) {v : Nat} {a b : Lit}
    (h : g.nodes[v]? = some (.gate a b)) : v ≠ 1 := by
  rintro rfl
  have := (wf.constants 1).2 (by omega)
  simp [h] at this

theorem WellFormed.ne_one_of_input {g : Graph} (wf : g.WellFormed) {v : Nat}
    (h : g.nodes[v]? = some .input) : v ≠ 1 := by
  rintro rfl
  have := (wf.constants 1).2 (by omega)
  simp [h] at this

theorem WellFormed.pos_mem_of_input {g : Graph} (wf : g.WellFormed) {v : Nat}
    (h : g.nodes[v]? = some .input) : Lit.pos v ∈ g := by
  refine ⟨?_, (Array.getElem?_eq_some_iff.1 h).1⟩
  by_contra hzero
  obtain rfl : v = 0 := by simpa using hzero
  have := (wf.constants 0).2 (by omega)
  simp [h] at this

theorem WellFormed.value_input {g : Graph} (wf : g.WellFormed) {v : Nat}
    (h : g.nodes[v]? = some .input) (ρ : Assignment) : g.value ρ v = ρ v :=
  value_of_operands?_eq_none (wf.ne_one_of_input h) (operands?_eq_none_of_input h) ρ

theorem WellFormed.value_gate {g : Graph} (wf : g.WellFormed) {v : Nat} {a b : Lit}
    (h : g.nodes[v]? = some (.gate a b)) (ρ : Assignment) :
    g.value ρ v = (g.eval ρ a && g.eval ρ b) := by
  obtain ⟨hlt, hp⟩ := wf.operands?_eq_some h
  exact value_of_operands?_eq_some (wf.ne_one_of_gate h) hp ρ

@[simp] theorem eval_truth (g : Graph) (ρ : Assignment) : g.eval ρ truth = true := by
  simp [eval, truth, value_one]

@[simp] theorem eval_falsity (g : Graph) (ρ : Assignment) : g.eval ρ falsity = false := by
  simp [eval, falsity, value_one]

@[simp] theorem eval_not (g : Graph) (ρ : Assignment) (l : Lit) :
    g.eval ρ l.not = !g.eval ρ l := by
  simp [eval, Lit.not]

@[simp] theorem eval_flipIf (g : Graph) (ρ : Assignment) (c : Bool) (l : Lit) :
    g.eval ρ (l.flipIf c) = (c ^^ g.eval ρ l) := by
  simp [eval, Lit.flipIf]

@[simp] theorem eval_pos (g : Graph) (ρ : Assignment) (v : Nat) :
    g.eval ρ (.pos v) = g.value ρ v := by
  simp [eval]

theorem value_eq_of_le {g g' : Graph} (h : g ≤ g') (ρ : Assignment) {v : Nat} (hv : v < g.size) :
    g'.value ρ v = g.value ρ v := by
  induction v using Nat.strongRecOn with
  | _ v ih =>
    have hops := operands?_eq_of_le h hv
    by_cases hone : v = 1
    · subst hone
      rw [value_one, value_one]
    · cases hp : g.operands? v with
      | none =>
        rw [value_of_operands?_eq_none hone hp, value_of_operands?_eq_none hone (hops.trans hp)]
      | some p =>
        have ha := p.2.1
        have hb := p.2.2
        rw [value_of_operands?_eq_some hone hp, value_of_operands?_eq_some hone (hops.trans hp)]
        simp only [eval]
        rw [ih _ ha (by omega), ih _ hb (by omega)]

theorem eval_eq_of_le {g g' : Graph} (h : g ≤ g') (ρ : Assignment) {l : Lit} (hl : l ∈ g) :
    g'.eval ρ l = g.eval ρ l := by
  rw [eval, eval, value_eq_of_le h ρ hl.2]

end Graph

end Lasso
