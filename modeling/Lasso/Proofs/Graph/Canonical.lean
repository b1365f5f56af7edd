import Mathlib.Logic.Relation
import Lasso.Proofs.Graph.Dimacs
import Lasso.Proofs.Graph.Repetition

/-! # Graphs are canonical

Whatever is constructed, the operands of a gate are two nodes in order, neither of which is the
constant, and no other gate has them.  What was constructed is found again at any later time, with
the value that it had.
-/

namespace Lasso

set_option autoImplicit false

theorem Lit.eq_or_eq_not {a b : Lit} (h : a.var = b.var) : a = b ∨ a = b.not := by
  obtain ⟨v, negated⟩ := a
  obtain ⟨w, negated'⟩ := b
  obtain rfl : v = w := h
  cases negated <;> cases negated' <;> simp [Lit.not]

theorem Lit.code_le_of_var_lt {a b : Lit} (h : a.var < b.var) : a.code < b.code := by
  have ha := Bool.toNat_le a.negated
  simp only [code]
  omega

namespace Graph

/-- The operands of every gate are in order and above the constant. -/
def Reduced (g : Graph) : Prop :=
  ∀ (v : Nat) (a b : Lit), g.nodes[v]? = some (.gate a b) → 1 < a.var ∧ a.var < b.var

theorem reduced_empty : (∅ : Graph).Reduced := by
  intro v a b hnode
  change (#[Node.constant, Node.constant] : Array Node)[v]? = some (.gate a b) at hnode
  match v with
  | 0 | 1 => simp at hnode
  | v + 2 => simp at hnode

theorem Reduced.push {g g' : Graph} (h : g.Reduced) {node : Node}
    (hnodes : g'.nodes = g.nodes.push node)
    (hnode : ∀ a b, node = .gate a b → 1 < a.var ∧ a.var < b.var) : g'.Reduced := by
  intro v a b hgate
  rw [hnodes, Array.getElem?_push] at hgate
  split at hgate
  · exact hnode a b (Option.some.inj hgate)
  · exact h v a b hgate

theorem Reduced.input {g : Graph} (h : g.Reduced) : (input g).2.Reduced :=
  h.push rfl nofun

theorem Reduced.gate {g : Graph} (h : g.Reduced) {a b : Lit} (ha : 1 < a.var)
    (hab : a.var < b.var) : (gate a b g).2.Reduced := by
  unfold Graph.gate
  split
  · exact h
  · apply h.push rfl
    rintro _ _ ⟨⟩
    exact ⟨ha, hab⟩

/-- A gate is made only of operands that are neither constant nor of one variable. -/
theorem Reduced.and {g : Graph} (h : g.Reduced) {a b : Lit} (ha : a ∈ g) (hb : b ∈ g) :
    (and a b g).2.Reduced := by
  unfold Graph.and
  split
  · exact h
  rename_i hne
  split
  · exact h
  rename_i hnot
  have hvar : a.var ≠ b.var := fun heq => (Lit.eq_or_eq_not heq).elim hne hnot
  have ordered : ∀ c d : Lit, c ∈ g → c.var < d.var →
      ((if c = falsity then return falsity else if c = truth then return d
        else Graph.gate c d : StateM Graph Lit) g).2.Reduced := by
    intro c d hc hlt
    split
    · exact h
    rename_i hfalsity
    split
    · exact h
    rename_i htruth
    have hone : c.var ≠ 1 := fun hone =>
      (Lit.eq_or_eq_not (b := truth) hone).elim htruth hfalsity
    have hpos := hc.1
    exact h.gate (by omega) hlt
  by_cases hcode : a.code < b.code
  · simp only [if_pos hcode]
    have hle : ¬ b.var < a.var := fun hlt => Nat.lt_asymm hcode (Lit.code_le_of_var_lt hlt)
    exact ordered a b ha (by omega)
  · simp only [if_neg hcode]
    have hle : ¬ a.var < b.var := fun hlt => hcode (Lit.code_le_of_var_lt hlt)
    exact ordered b a hb (by omega)

theorem Reduced.or {g : Graph} (h : g.Reduced) {a b : Lit} (ha : a ∈ g) (hb : b ∈ g) :
    (or a b g).2.Reduced :=
  h.and (not_mem_iff.2 ha) (not_mem_iff.2 hb)

theorem Reduced.or_and {g : Graph} (wf : g.WellFormed) (h : g.Reduced) {a b c d : Lit} (ha : a ∈ g)
    (hb : b ∈ g) (hc : c ∈ g) (hd : d ∈ g) :
    ((do let left ← Graph.and a b; let right ← Graph.and c d; Graph.or left right : StateM Graph Lit)
      g).2.Reduced := by
  have hleft := and_computes wf ha hb
  have hright := and_computes hleft.wf (hleft.mem_old hc) (hleft.mem_old hd)
  have hreduced := (h.and ha hb).and (hleft.mem_old hc) (hleft.mem_old hd)
  exact hreduced.or (hright.mem_old hleft.mem) hright.mem

theorem Reduced.foldlM {join : Lit → Lit → StateM Graph Lit} {op : Bool → Bool → Bool}
    (hjoin : Computes join op)
    (hkeeps : ∀ {g : Graph}, g.Reduced → ∀ {a b : Lit}, a ∈ g → b ∈ g → (join a b g).2.Reduced)
    (ls : List Lit) {g : Graph} (wf : g.WellFormed) (h : g.Reduced) {first : Lit}
    (hfirst : first ∈ g) (hls : ∀ l ∈ ls, l ∈ g) : (ls.foldlM join first g).2.Reduced := by
  induction ls generalizing g first with
  | nil => exact h
  | cons l ls ih =>
    have hl := hls l List.mem_cons_self
    have hstep := hjoin wf hfirst hl
    apply ih hstep.wf (hkeeps h hfirst hl) hstep.mem
    exact fun m hm => hstep.mem_old (hls m (List.mem_cons_of_mem l hm))

namespace Operation

variable (o : Operation) {g : Graph} (wf : g.WellFormed)

include wf

theorem run_reduced (h : g.Reduced) (hargs : ∀ l ∈ o.arguments, l ∈ g) :
    (o.run g).2.Reduced := by
  cases o with
  | input => exact h.input
  | and a b => exact h.and (forall_pair hargs).1 (forall_pair hargs).2
  | or a b => exact h.or (forall_pair hargs).1 (forall_pair hargs).2
  | implies a b => exact h.or (not_mem_iff.2 (forall_pair hargs).1) (forall_pair hargs).2
  | xor a b | iff a b =>
    obtain ⟨ha, hb⟩ := forall_pair hargs
    exact h.or_and wf ha (not_mem_iff.2 hb) (not_mem_iff.2 ha) hb
  | ite c a b =>
    obtain ⟨hc, ha, hb⟩ := forall_triple hargs
    exact h.or_and wf hc ha (not_mem_iff.2 hc) hb
  | all ls => exact .foldlM and_computes .and ls wf h wf.truth_mem hargs
  | any ls => exact .foldlM or_computes .or ls wf h wf.falsity_mem hargs

/-- Every construction but that of a free variable is found again. -/
theorem run_repeats (ho : o ≠ .input) (hargs : ∀ l ∈ o.arguments, l ∈ g) : Repeats o.run g := by
  have hpair : ∀ {join : Lit → Lit → StateM Graph Lit} {a b : Lit}, Repeatable join →
      (∀ l ∈ [a, b], l ∈ g) → Repeats (join a b) g := by
    intro join a b hjoin hargs
    obtain ⟨ha, hb⟩ := forall_pair hargs
    exact hjoin.repeats wf ha hb
  cases o with
  | input => exact absurd rfl ho
  | and a b => exact hpair and_repeatable hargs
  | or a b => exact hpair or_repeatable hargs
  | implies a b => exact hpair implies_repeatable hargs
  | xor a b => exact hpair xor_repeatable hargs
  | iff a b => exact hpair iff_repeatable hargs
  | ite c a b =>
    obtain ⟨hc, ha, hb⟩ := forall_triple hargs
    exact ite_repeats wf ha hb hc
  | all ls => exact foldlM_repeats and_repeatable ls wf hargs wf.truth_mem
  | any ls => exact foldlM_repeats or_repeatable ls wf hargs wf.falsity_mem

end Operation

/-- One construction on expressions of a graph. -/
inductive Step (g : Graph) : Graph → Prop where
  | run (o : Operation) (hargs : ∀ l ∈ o.arguments, l ∈ g) : Step g (o.run g).2

abbrev Steps : Graph → Graph → Prop := Relation.ReflTransGen Step

theorem Made.steps {g g' : Graph} (hg : g.Made) (h : Steps g g') : g'.Made ∧ g ≤ g' := by
  induction h with
  | refl => exact ⟨hg, le_refl g⟩
  | tail _ hstep ih =>
    obtain ⟨hmade, hle⟩ := ih
    cases hstep with
    | run o hargs =>
      constructor
      · exact .step o hmade hargs
      · exact le_trans hle (o.run_builds hmade.wellFormed hargs).grows

theorem Made.reduced {g : Graph} (hg : g.Made) : g.Reduced := by
  induction hg with
  | empty => exact reduced_empty
  | step o hg hargs ih => exact o.run_reduced hg.wellFormed ih hargs

/-- The gates of a graph are made of earlier nodes, of which none are superfluous, and each is there
once. -/
structure Canonical (g : Graph) : Prop where
  smaller : ∀ (v : Nat) (a b : Lit), g.nodes[v]? = some (.gate a b) → a.var < v ∧ b.var < v
  constant : ∀ (v : Nat) (a b : Lit), g.nodes[v]? = some (.gate a b) →
    isConstant a = false ∧ isConstant b = false
  distinct : ∀ (v : Nat) (a b : Lit), g.nodes[v]? = some (.gate a b) → a ≠ b ∧ a ≠ b.not
  unique : ∀ (v w : Nat) (a b c d : Lit), g.nodes[v]? = some (.gate a b) →
    g.nodes[w]? = some (.gate c d) → (c = a ∧ d = b) ∨ (c = b ∧ d = a) → w = v

theorem Reduced.canonical {g : Graph} (wf : g.WellFormed) (h : g.Reduced) : g.Canonical := by
  constructor
  case smaller =>
    intro v a b hnode
    obtain ⟨⟨-, ha⟩, -, hb⟩ := wf.operands v a b hnode
    exact ⟨ha, hb⟩
  case constant =>
    intro v a b hnode
    obtain ⟨ha, hab⟩ := h v a b hnode
    exact ⟨beq_false_of_ne (by omega), beq_false_of_ne (by omega)⟩
  case distinct =>
    intro v a b hnode
    have hvar : a.var ≠ b.var := Nat.ne_of_lt (h v a b hnode).2
    constructor
    · rintro rfl
      exact hvar rfl
    · rintro rfl
      exact hvar rfl
  case unique =>
    rintro v w a b c d hv hw (⟨rfl, rfl⟩ | ⟨rfl, rfl⟩)
    · have hgate := (wf.gates _ _ v).2 hv
      rw [(wf.gates _ _ w).2 hw] at hgate
      exact Option.some.inj hgate
    · -- the operands of both are in order, so those of one are not those of the other reversed
      exact absurd (h v _ _ hv).2 (Nat.lt_asymm (h w _ _ hw).2)

/-- A graph that constructions made is canonical.  However it grows from a further construction on,
what was made has the value of its meaning, what there was before keeps its value, and a connective
of the same arguments is the same expression and adds nothing. -/
theorem Made.constructs {g : Graph} (hg : g.Made) :
    g.Canonical ∧
    (∀ ρ, g.eval ρ truth = true ∧ g.eval ρ falsity = false) ∧
    (∀ l ∈ g, l.not ∈ g ∧ ∀ ρ, g.eval ρ l.not = !g.eval ρ l) ∧
    ∀ o : Operation, (∀ l ∈ o.arguments, l ∈ g) →
      (o.run g).1 ∈ (o.run g).2 ∧
      ∀ g', Steps (o.run g).2 g' →
        g ≤ g' ∧
        (∀ ρ, g'.eval ρ (o.run g).1 = o.meaning g ρ) ∧
        (∀ l ∈ g, ∀ ρ, g'.eval ρ l = g.eval ρ l) ∧
        (o ≠ .input → o.run g' = ((o.run g).1, g')) := by
  have wf := hg.wellFormed
  refine ⟨hg.reduced.canonical wf, ?_, ?_, ?_⟩
  · exact fun ρ => ⟨eval_truth g ρ, eval_falsity g ρ⟩
  · exact fun l hl => ⟨not_mem_iff.2 hl, fun ρ => eval_not g ρ l⟩
  intro o hargs
  have hbuilds := o.run_builds wf hargs
  refine ⟨hbuilds.mem, fun g' hsteps => ?_⟩
  obtain ⟨hmade, hle⟩ := (hg.step o hargs).steps hsteps
  have hgrows : g ≤ g' := le_trans hbuilds.grows hle
  refine ⟨hgrows, fun ρ => ?_, fun l hl ρ => eval_eq_of_le hgrows ρ hl, fun ho => ?_⟩
  · rw [eval_eq_of_le hle ρ hbuilds.mem, hbuilds.eval]
  · exact o.run_repeats wf ho hargs g' hmade.wellFormed hle

/-- A choice on two free variables and their conjunction, made again after another variable. -/
theorem Made.constructs_ite :
    let o : Operation := .ite (.pos 2) (.pos 3) ⟨4, true⟩
    let r := o.run conjunctionGraph
    let s := Operation.input.run r.2
    conjunctionGraph.Canonical ∧ o.run s.2 = (r.1, s.2) ∧
      ∀ ρ, s.2.eval ρ r.1 = bif ρ 2 then ρ 3 else true := by
  intro o r s
  have hargs : ∀ l ∈ o.arguments, l ∈ conjunctionGraph := by
    change ∀ l ∈ o.arguments, 0 < l.var ∧ l.var < conjunctionGraph.nodes.size
    rw [nodes_conjunctionGraph]
    decide
  obtain ⟨hcanonical, -, -, hconstructs⟩ := Made.constructs made_conjunctionGraph
  obtain ⟨-, hlater⟩ := hconstructs o hargs
  obtain ⟨-, hvalue, -, hagain⟩ := hlater s.2 (.single (.run .input (by simp [Operation.arguments])))
  have hconnective : o ≠ .input := by simp [o]
  refine ⟨hcanonical, hagain hconnective, fun ρ => ?_⟩
  have wf := made_conjunctionGraph.wellFormed
  have hfirst : conjunctionGraph.eval ρ (.pos 2) = ρ 2 := by
    rw [eval_pos, wf.value_input (by rw [nodes_conjunctionGraph]; rfl)]
  have hsecond : conjunctionGraph.eval ρ (.pos 3) = ρ 3 := by
    rw [eval_pos, wf.value_input (by rw [nodes_conjunctionGraph]; rfl)]
  have hgate : conjunctionGraph.eval ρ (.pos 4) = (ρ 2 && ρ 3) := by
    rw [eval_pos, wf.value_gate (a := .pos 2) (b := .pos 3) (by rw [nodes_conjunctionGraph]; rfl),
      hfirst, hsecond]
  have hnot : conjunctionGraph.eval ρ ⟨4, true⟩ = !conjunctionGraph.eval ρ (.pos 4) :=
    eval_not _ _ (.pos 4)
  rw [hvalue, Operation.meaning, hfirst, hsecond, hnot, hgate]
  cases ρ 2 <;> rfl

end Graph

end Lasso
