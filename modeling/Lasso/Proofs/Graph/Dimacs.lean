import Mathlib.Order.Bounds.Basic
import Lasso.Proofs.Graph.Construction
import Lasso.Proofs.Graph.Satisfaction

/-! # The exchange format says what the expressions say

The clauses that are written for some expressions are over the numbers of the graph.  An assignment
is a model exactly if it follows the graph on all that lies beneath the expressions and makes them
hold; on the free variables of the graph, models are the assignments under which the expressions
hold.
-/

namespace Lasso

set_option autoImplicit false

namespace Graph

/-- One construction on a graph. -/
inductive Operation where
  | input
  | and (a b : Lit)
  | or (a b : Lit)
  | implies (a b : Lit)
  | xor (a b : Lit)
  | iff (a b : Lit)
  | ite (c a b : Lit)
  | all (ls : List Lit)
  | any (ls : List Lit)

namespace Operation

def run : Operation → StateM Graph Lit
  | input => Graph.input
  | and a b => Graph.and a b
  | or a b => Graph.or a b
  | implies a b => Graph.implies a b
  | xor a b => Graph.xor a b
  | iff a b => Graph.iff a b
  | ite c a b => Graph.ite c a b
  | all ls => Graph.all ls
  | any ls => Graph.any ls

def arguments : Operation → List Lit
  | input => []
  | and a b | or a b | implies a b | xor a b | iff a b => [a, b]
  | ite c a b => [c, a, b]
  | all ls | any ls => ls

/-- The value of a free variable is the one it is given, and that of a connective is a boolean
function of the values of its arguments. -/
def meaning (g : Graph) (ρ : Assignment) : Operation → Bool
  | input => ρ g.size
  | and a b => g.eval ρ a && g.eval ρ b
  | or a b => g.eval ρ a || g.eval ρ b
  | implies a b => !g.eval ρ a || g.eval ρ b
  | xor a b => g.eval ρ a ^^ g.eval ρ b
  | iff a b => g.eval ρ a == g.eval ρ b
  | ite c a b => bif g.eval ρ c then g.eval ρ a else g.eval ρ b
  | all ls => ls.all (g.eval ρ)
  | any ls => ls.any (g.eval ρ)

theorem forall_pair {P : Lit → Prop} {a b : Lit} (h : ∀ l ∈ [a, b], P l) : P a ∧ P b := by
  simpa using h

theorem forall_triple {P : Lit → Prop} {a b c : Lit} (h : ∀ l ∈ [a, b, c], P l) :
    P a ∧ P b ∧ P c := by
  simpa using h

theorem run_builds (o : Operation) {g : Graph} (wf : g.WellFormed)
    (hargs : ∀ l ∈ o.arguments, l ∈ g) : g.Builds (o.run g) (o.meaning g) := by
  cases o with
  | input => exact input_builds wf
  | and a b => exact and_computes wf (forall_pair hargs).1 (forall_pair hargs).2
  | or a b => exact or_computes wf (forall_pair hargs).1 (forall_pair hargs).2
  | implies a b => exact implies_computes wf (forall_pair hargs).1 (forall_pair hargs).2
  | xor a b => exact xor_computes wf (forall_pair hargs).1 (forall_pair hargs).2
  | iff a b => exact iff_computes wf (forall_pair hargs).1 (forall_pair hargs).2
  | ite c a b =>
    obtain ⟨hc, ha, hb⟩ := forall_triple hargs
    exact ite_builds wf hc ha hb
  | all ls => exact all_builds ls wf hargs
  | any ls => exact any_builds ls wf hargs

end Operation

/-- The graphs that a sequence of constructions makes, each on expressions there are. -/
inductive Made : Graph → Prop where
  | empty : Made ∅
  | step {g : Graph} (o : Operation) (hg : Made g) (hargs : ∀ l ∈ o.arguments, l ∈ g) :
    Made (o.run g).2

theorem Made.wellFormed {g : Graph} (hg : g.Made) : g.WellFormed := by
  induction hg with
  | empty => exact wellFormed_empty
  | step o hg hargs ih => exact (o.run_builds ih hargs).wf

/-- A node is the node of an expression, or an operand of a gate that lies beneath one. -/
inductive Beneath (g : Graph) (roots : List Lit) : Nat → Prop where
  | root {l : Lit} (hl : l ∈ roots) : Beneath g roots l.var
  | left {v : Nat} {a b : Lit} (hv : Beneath g roots v) (hnode : g.nodes[v]? = some (.gate a b)) :
    Beneath g roots a.var
  | right {v : Nat} {a b : Lit} (hv : Beneath g roots v) (hnode : g.nodes[v]? = some (.gate a b)) :
    Beneath g roots b.var

theorem beneath_of_mem_visit {g : Graph} {roots : List Lit} {v : Nat} (hv : g.Beneath roots v)
    {r : Reached} (hr : ∀ w ∈ r.order, g.Beneath roots w) :
    ∀ w ∈ (g.visit v r).order, g.Beneath roots w := by
  induction v using Nat.strongRecOn generalizing r with
  | _ v ih =>
    rw [visit]
    split
    · exact hr
    split
    · intro w hw
      rcases Reached.mem_push_order.1 hw with hw | rfl
      · exact hr w hw
      · exact hv
    · rename_i a b hlt hops
      have hnode := nodes_of_operands?_eq_some hops
      have ha := ih a.var hlt.1 (hv.left hnode) hr
      have hb := ih b.var hlt.2 (hv.right hnode) ha
      intro w hw
      rcases Reached.mem_push_order.1 hw with hw | rfl
      · exact hb w hw
      · exact hv

theorem beneath_of_mem_fold {g : Graph} {roots ls : List Lit} (hls : ∀ l ∈ ls, l ∈ roots)
    {r : Reached} (hr : ∀ w ∈ r.order, g.Beneath roots w) :
    ∀ w ∈ (ls.foldl (fun r l => g.visit l.var r) r).order, g.Beneath roots w := by
  induction ls generalizing r with
  | nil => exact hr
  | cons l ls ih =>
    apply ih
    · intro m hm
      exact hls m (List.mem_cons_of_mem l hm)
    · exact beneath_of_mem_visit (.root (hls l List.mem_cons_self)) hr

/-- The walk reaches all that lies beneath the expressions, and nothing else. -/
theorem mem_reach_iff {g : Graph} (wf : g.WellFormed) {roots : List Lit} {v : Nat} :
    v ∈ g.reach roots ↔ v ≠ 1 ∧ g.Beneath roots v := by
  constructor
  · intro hv
    refine ⟨ne_one_of_mem_reach hv, ?_⟩
    apply beneath_of_mem_fold (fun l hl => hl) _ v (Array.mem_toList_iff.1 hv)
    simp [EmptyCollection.emptyCollection, Reached.empty]
  · rintro ⟨hone, hv⟩
    -- the constant is no gate, so a walk that leaves it out misses nothing
    have hmem : v = 1 ∨ v ∈ g.reach roots := by
      clear hone
      induction hv with
      | root hl => exact root_mem_reach g hl
      | left _ hnode ih =>
        obtain ⟨_, hp⟩ := wf.operands?_eq_some hnode
        exact (operands_mem_reach (ih.resolve_left (wf.ne_one_of_gate hnode)) hp).1
      | right _ hnode ih =>
        obtain ⟨_, hp⟩ := wf.operands?_eq_some hnode
        exact (operands_mem_reach (ih.resolve_left (wf.ne_one_of_gate hnode)) hp).2
    exact hmem.resolve_left hone

theorem Beneath.mem {g : Graph} (wf : g.WellFormed) {roots : List Lit}
    (hroots : ∀ l ∈ roots, l ∈ g) {v : Nat} (hv : g.Beneath roots v) : 0 < v ∧ v < g.size := by
  induction hv with
  | root hl => exact hroots _ hl
  | left _ hnode ih =>
    have := (wf.operands _ _ _ hnode).1
    omega
  | right _ hnode ih =>
    have := (wf.operands _ _ _ hnode).2
    omega

theorem beneath_iff_of_le {g g' : Graph} (wf : g.WellFormed) (hle : g ≤ g') {roots : List Lit}
    (hroots : ∀ l ∈ roots, l ∈ g) {v : Nat} : g'.Beneath roots v ↔ g.Beneath roots v := by
  have hnodes : ∀ {w : Nat}, g.Beneath roots w → g'.nodes[w]? = g.nodes[w]? := fun hw =>
    nodes_eq_of_le hle (hw.mem wf hroots).2
  constructor
  · intro hv
    induction hv with
    | root hl => exact .root hl
    | left _ hnode ih => exact ih.left ((hnodes ih).symm.trans hnode)
    | right _ hnode ih => exact ih.right ((hnodes ih).symm.trans hnode)
  · intro hv
    induction hv with
    | root hl => exact .root hl
    | left hw hnode ih => exact ih.left ((hnodes hw).trans hnode)
    | right hw hnode ih => exact ih.right ((hnodes hw).trans hnode)

theorem mem_support_iff_of_le {g g' : Graph} (wf : g.WellFormed) (wf' : g'.WellFormed)
    (hle : g ≤ g') {l : Lit} (hl : l ∈ g) {m : Lit} : m ∈ g'.support l ↔ m ∈ g.support l := by
  have hroots : ∀ k ∈ [l], k ∈ g := fun k hk => by rwa [List.mem_singleton.1 hk]
  simp only [mem_support_iff, mem_reach_iff wf, mem_reach_iff wf', beneath_iff_of_le wf hle hroots]
  refine and_congr_right fun _ => and_congr_right fun hm => ?_
  rw [operands?_eq_of_le hle (hm.2.mem wf hroots).2]

/-- An assignment to all nodes that follows the graph beneath some expressions. -/
structure Follows (g : Graph) (roots : List Lit) (ρ : Assignment) : Prop where
  one : ρ 1 = true
  gate : ∀ (v : Nat) (a b : Lit), g.Beneath roots v → g.nodes[v]? = some (.gate a b) →
    ρ v = (a.eval ρ && b.eval ρ)

theorem follows_value {g : Graph} (wf : g.WellFormed) (roots : List Lit) (ρ : Assignment) :
    g.Follows roots (g.value ρ) where
  one := value_one g ρ
  gate _ _ _ _ hnode := wf.value_gate hnode ρ

theorem eval_clauses_iff_follows {g : Graph} (wf : g.WellFormed) {roots : List Lit}
    {ρ : Assignment} :
    Cnf.eval ρ (g.clauses roots) = true ↔
      g.Follows roots ρ ∧ ∀ l ∈ roots, l.eval ρ = true := by
  rw [eval_clauses]
  apply and_congr_left'
  constructor
  · rintro ⟨hone, hgates⟩
    refine ⟨hone, fun v a b hv hnode => ?_⟩
    obtain ⟨_, hp⟩ := wf.operands?_eq_some hnode
    exact hgates v ((mem_reach_iff wf).2 ⟨wf.ne_one_of_gate hnode, hv⟩) _ hp
  · rintro ⟨hone, hgates⟩
    refine ⟨hone, fun v hv p hp => ?_⟩
    exact hgates v _ _ ((mem_reach_iff wf).1 hv).2 (nodes_of_operands?_eq_some hp)

end Graph

/-- A variable occurs in some clause. -/
def Cnf.Mentions (f : Cnf) (v : Nat) : Prop := ∃ c ∈ f, ∃ l ∈ c, l.var = v

theorem Clause.maxVar_le_iff {c : Clause} {n : Nat} : c.maxVar ≤ n ↔ ∀ l ∈ c, l.var ≤ n := by
  induction c with
  | nil => simp [maxVar]
  | cons l c ih =>
    have hcons : maxVar (l :: c) = max l.var (maxVar c) := rfl
    rw [hcons, Nat.max_le, ih, List.forall_mem_cons]

theorem Cnf.maxVar_le_iff {f : Cnf} {n : Nat} : f.maxVar ≤ n ↔ ∀ v, f.Mentions v → v ≤ n := by
  have hclauses : f.maxVar ≤ n ↔ ∀ c ∈ f, Clause.maxVar c ≤ n := by
    induction f with
    | nil => simp [maxVar]
    | cons c f ih =>
      have hcons : maxVar (c :: f) = max c.maxVar (maxVar f) := rfl
      rw [hcons, Nat.max_le, ih, List.forall_mem_cons]
  rw [hclauses]
  constructor
  · rintro h v ⟨c, hc, l, hl, rfl⟩
    exact Clause.maxVar_le_iff.1 (h c hc) l hl
  · intro h c hc
    exact Clause.maxVar_le_iff.2 fun l hl => h l.var ⟨c, hc, l, hl, rfl⟩

namespace Graph

theorem mentions_clauses_iff {g : Graph} {roots : List Lit} {v : Nat} :
    (g.clauses roots).Mentions v ↔
      (g.definitions roots).Mentions v ∨ (assertions [truth] roots).Mentions v := by
  simp only [Cnf.Mentions, clauses, List.mem_append, or_and_right, exists_or]

theorem mentions_gateClauses_iff {v w : Nat} {a b : Lit} :
    (gateClauses v a b).Mentions w ↔ w = v ∨ w = a.var ∨ w = b.var := by
  simp only [Cnf.Mentions, gateClauses, List.mem_cons, List.not_mem_nil, or_false, exists_eq_or_imp,
    exists_eq_left, Lit.var_not, Lit.var_pos]
  grind

theorem mentions_definitions_iff {g : Graph} {roots : List Lit} {v : Nat} :
    (g.definitions roots).Mentions v ↔
      v = 1 ∨ ∃ w a b, (w, a, b) ∈ g.gatesBelow roots ∧ (v = w ∨ v = a.var ∨ v = b.var) := by
  constructor
  · rintro ⟨c, hc, l, hl, rfl⟩
    rcases List.mem_cons.1 hc with rfl | hc
    · left
      rw [List.mem_singleton.1 hl]
      rfl
    · obtain ⟨⟨w, a, b⟩, hmem, hc⟩ := List.mem_flatMap.1 hc
      exact .inr ⟨w, a, b, hmem, mentions_gateClauses_iff.1 ⟨c, hc, l, hl, rfl⟩⟩
  · rintro (rfl | ⟨w, a, b, hmem, hv⟩)
    · exact ⟨[truth], List.mem_cons_self, truth, List.mem_singleton_self truth, rfl⟩
    · obtain ⟨c, hc, l, hl, hvar⟩ := mentions_gateClauses_iff.2 hv
      exact ⟨c, List.mem_cons_of_mem _ (List.mem_flatMap.2 ⟨_, hmem, hc⟩), l, hl, hvar⟩

theorem exists_root_of_mentions_assertions {units roots : List Lit} {v : Nat}
    (h : (assertions units roots).Mentions v) : ∃ l ∈ roots, l.var = v := by
  induction roots generalizing units with
  | nil =>
    obtain ⟨c, hc, -⟩ := h
    cases hc
  | cons l roots ih =>
    have hrest : ∀ units, (assertions units roots).Mentions v → ∃ m ∈ l :: roots, m.var = v := by
      intro units h
      obtain ⟨m, hm, hvar⟩ := ih h
      exact ⟨m, List.mem_cons_of_mem l hm, hvar⟩
    rw [assertions] at h
    split at h
    · exact hrest units h
    split at h
    · obtain ⟨c, hc, m, hm, hvar⟩ := h
      rcases List.mem_cons.1 hc with rfl | hc
      · cases hm
      · exact hrest units ⟨c, hc, m, hm, hvar⟩
    · obtain ⟨c, hc, m, hm, hvar⟩ := h
      rcases List.mem_cons.1 hc with rfl | hc
      · exact ⟨l, List.mem_cons_self, by rw [← hvar, List.mem_singleton.1 hm]⟩
      · exact hrest _ ⟨c, hc, m, hm, hvar⟩

/-- A root that gets no unit clause of its own has the variable of an earlier one. -/
theorem mentions_assertions_of_mem (units : List Lit) {roots : List Lit} {l : Lit}
    (hl : l ∈ roots) :
    (∃ m ∈ units, m.var = l.var) ∨ (assertions units roots).Mentions l.var := by
  induction roots generalizing units with
  | nil => cases hl
  | cons k roots ih =>
    rw [assertions]
    split
    · rename_i hk
      rcases List.mem_cons.1 hl with rfl | hl
      · exact .inl ⟨l, hk, rfl⟩
      · exact ih units hl
    split
    · rename_i hk
      rcases List.mem_cons.1 hl with rfl | hl
      · exact .inl ⟨l.not, hk, rfl⟩
      · refine (ih units hl).imp_right ?_
        rintro ⟨c, hc, h⟩
        exact ⟨c, List.mem_cons_of_mem _ hc, h⟩
    · have hunit : Cnf.Mentions ([k] :: assertions (k :: units) roots) k.var :=
        ⟨[k], List.mem_cons_self, k, List.mem_singleton_self k, rfl⟩
      rcases List.mem_cons.1 hl with rfl | hl
      · exact .inr hunit
      · rcases ih (k :: units) hl with ⟨m, hm, hvar⟩ | ⟨c, hc, h⟩
        · rcases List.mem_cons.1 hm with rfl | hm
          · exact .inr (hvar ▸ hunit)
          · exact .inl ⟨m, hm, hvar⟩
        · exact .inr ⟨c, List.mem_cons_of_mem _ hc, h⟩

theorem mentions_clauses_iff_beneath {g : Graph} (wf : g.WellFormed) {roots : List Lit} {v : Nat} :
    (g.clauses roots).Mentions v ↔ v = 1 ∨ g.Beneath roots v := by
  rw [mentions_clauses_iff, mentions_definitions_iff]
  constructor
  · rintro ((rfl | ⟨w, a, b, hmem, hv⟩) | hv)
    · exact .inl rfl
    · obtain ⟨hw, _, hp⟩ := mem_gatesBelow_iff.1 hmem
      have hbeneath := ((mem_reach_iff wf).1 hw).2
      have hnode := nodes_of_operands?_eq_some hp
      rcases hv with rfl | rfl | rfl
      · exact .inr hbeneath
      · exact .inr (hbeneath.left hnode)
      · exact .inr (hbeneath.right hnode)
    · obtain ⟨l, hl, rfl⟩ := exists_root_of_mentions_assertions hv
      exact .inr (.root hl)
  · have hgate : ∀ {w : Nat} {a b : Lit}, g.Beneath roots w → g.nodes[w]? = some (.gate a b) →
        (w, a, b) ∈ g.gatesBelow roots := by
      intro w a b hw hnode
      obtain ⟨hlt, hp⟩ := wf.operands?_eq_some hnode
      exact mem_gatesBelow_iff.2 ⟨(mem_reach_iff wf).2 ⟨wf.ne_one_of_gate hnode, hw⟩, hlt, hp⟩
    rintro (rfl | hv)
    · exact .inl (.inl rfl)
    cases hv with
    | root hl =>
      rcases mentions_assertions_of_mem [truth] hl with ⟨m, hm, hvar⟩ | h
      · obtain rfl := List.mem_singleton.1 hm
        exact .inl (.inl hvar.symm)
      · exact .inr h
    | left hv hnode => exact .inl (.inr ⟨_, _, _, hgate hv hnode, .inr (.inl rfl)⟩)
    | right hv hnode => exact .inl (.inr ⟨_, _, _, hgate hv hnode, .inr (.inr rfl)⟩)

/-- The number in the header is the largest variable that is written. -/
theorem isGreatest_dimacs_maxVar {g : Graph} (wf : g.WellFormed) (roots : List Lit) :
    IsGreatest {v | (g.clauses roots).Mentions v} (g.dimacs roots).maxVar := by
  have hle : ∀ n, (g.dimacs roots).maxVar ≤ n ↔ ∀ v, (g.clauses roots).Mentions v → v ≤ n := by
    intro n
    change max (g.clauses roots).maxVar (Clause.maxVar roots) ≤ n ↔ _
    rw [Nat.max_le, Cnf.maxVar_le_iff, Clause.maxVar_le_iff]
    apply and_iff_left_of_imp
    intro h l hl
    exact h l.var ((mentions_clauses_iff_beneath wf).2 (.inr (.root hl)))
  have hone : (g.clauses roots).Mentions 1 := (mentions_clauses_iff_beneath wf).2 (.inl rfl)
  have hupper := (hle _).1 (Nat.le_refl _)
  refine ⟨?_, hupper⟩
  by_contra hnot
  have hpred : (g.dimacs roots).maxVar ≤ (g.dimacs roots).maxVar - 1 := by
    rw [hle]
    intro v hv
    have hne : v ≠ (g.dimacs roots).maxVar := fun heq => hnot (heq ▸ hv)
    have := hupper v hv
    omega
  have := hupper 1 hone
  omega

end Graph

namespace Dimacs

theorem render_eq (d : Dimacs) : d.render =
    "p cnf " ++ toString d.maxVar ++ " " ++ toString d.clauses.length ++ "\n" ++
      String.join (d.clauses.map renderClause) := by
  have hfold : ∀ (cs : Cnf) (text : String), cs.foldl (fun text c => text ++ renderClause c) text =
      text ++ String.join (cs.map renderClause) := by
    intro cs
    induction cs with
    | nil => simp
    | cons c cs ih =>
      intro text
      simp [ih, String.append_assoc]
  exact hfold d.clauses _

end Dimacs

namespace Graph

theorem nodes_eq_input_of_beneath {g : Graph} (wf : g.WellFormed) {roots : List Lit}
    (hroots : ∀ l ∈ roots, l ∈ g) {v : Nat} (hv : g.Beneath roots v) (hone : v ≠ 1)
    (hops : g.operands? v = none) : g.nodes[v]? = some .input := by
  obtain ⟨hpos, hlt⟩ := hv.mem wf hroots
  have hconstant := wf.constants v
  cases hnode : g.nodes[v]? with
  | none =>
    have := Array.getElem?_eq_none_iff.1 hnode
    simp only [size] at hlt
    omega
  | some node =>
    cases node with
    | constant =>
      have := hconstant.1 hnode
      omega
    | input => rfl
    | gate a b =>
      obtain ⟨_, hp⟩ := wf.operands?_eq_some hnode
      rw [hops] at hp
      cases hp

/-- On its free variables, the models of what is written are where the expressions hold. -/
theorem exists_model_iff {g : Graph} (wf : g.WellFormed) {roots : List Lit}
    (hroots : ∀ l ∈ roots, l ∈ g) {σ : Assignment} :
    (∃ ρ, Cnf.eval ρ (g.clauses roots) = true ∧ ∀ v, g.nodes[v]? = some .input → ρ v = σ v) ↔
      ∀ l ∈ roots, g.eval σ l = true := by
  constructor
  · rintro ⟨ρ, hmodel, hinputs⟩ l hl
    have hreach := root_mem_reach g hl
    have hcongr : g.value ρ l.var = g.value σ l.var := by
      apply value_congr_of_reach _ hreach
      intro v hv hops
      obtain ⟨hone, hbeneath⟩ := (mem_reach_iff wf).1 hv
      exact hinputs v (nodes_eq_input_of_beneath wf hroots hbeneath hone hops)
    have htrue := (eval_clauses.1 hmodel).2 l hl
    rw [eval, ← hcongr, value_eq_of_eval_clauses hmodel hreach]
    exact htrue
  · intro htrue
    refine ⟨g.value σ, (eval_clauses_iff_follows wf).2 ⟨follows_value wf roots σ, htrue⟩, ?_⟩
    intro v hv
    exact wf.value_input hv σ

/-- What is written for some expressions of a graph that constructions made.  A model follows the
graph beneath the expressions and makes them hold.  So there is one exactly if the expressions can
hold together, models are the assignments to the free variables under which they hold, and the free
variables determine a model.  The header gives the number of clauses and the largest variable, and
all variables are numbers of the graph. -/
theorem dimacs_equivalent {g : Graph} (hg : g.Made) {roots : List Lit}
    (hroots : ∀ l ∈ roots, l ∈ g) :
    (∀ ρ, Cnf.eval ρ (g.dimacs roots).clauses = true ↔
      ρ 1 = true ∧
      (∀ (v : Nat) (a b : Lit), g.Beneath roots v → g.nodes[v]? = some (.gate a b) →
        ρ v = (a.eval ρ && b.eval ρ)) ∧
      ∀ l ∈ roots, l.eval ρ = true) ∧
    ((∃ ρ, Cnf.eval ρ (g.dimacs roots).clauses = true) ↔
      ∃ σ, ∀ l ∈ roots, g.eval σ l = true) ∧
    (∀ σ, (∀ l ∈ roots, g.eval σ l = true) ↔
      ∃ ρ, Cnf.eval ρ (g.dimacs roots).clauses = true ∧
        ∀ v, g.nodes[v]? = some .input → ρ v = σ v) ∧
    (∀ ρ, Cnf.eval ρ (g.dimacs roots).clauses = true →
      ∀ v, (g.dimacs roots).clauses.Mentions v → ρ v = g.value ρ v) ∧
    (∀ v, (g.dimacs roots).clauses.Mentions v → 0 < v ∧ v < g.size) ∧
    IsGreatest {v | (g.dimacs roots).clauses.Mentions v} (g.dimacs roots).maxVar ∧
    (g.dimacs roots).render =
      "p cnf " ++ toString (g.dimacs roots).maxVar ++ " " ++
        toString (g.dimacs roots).clauses.length ++ "\n" ++
        String.join ((g.dimacs roots).clauses.map Dimacs.renderClause) := by
  have wf := hg.wellFormed
  -- a solution of the free variables extends to one model, by the values of the gates
  have hmodels : ∀ σ, (∀ l ∈ roots, g.eval σ l = true) ↔
      ∃ ρ, Cnf.eval ρ (g.dimacs roots).clauses = true ∧
        ∀ v, g.nodes[v]? = some .input → ρ v = σ v := by
    intro σ
    exact (exists_model_iff wf hroots).symm
  refine ⟨?_, ⟨?_, ?_⟩, hmodels, ?_, ?_, isGreatest_dimacs_maxVar wf roots, Dimacs.render_eq _⟩
  · intro ρ
    constructor
    · intro h
      obtain ⟨⟨hone, hgates⟩, htrue⟩ := (eval_clauses_iff_follows wf).1 h
      exact ⟨hone, hgates, htrue⟩
    · rintro ⟨hone, hgates, htrue⟩
      exact (eval_clauses_iff_follows wf).2 ⟨⟨hone, hgates⟩, htrue⟩
  · rintro ⟨ρ, hmodel⟩
    exact ⟨ρ, (hmodels ρ).2 ⟨ρ, hmodel, fun _ _ => rfl⟩⟩
  · rintro ⟨σ, htrue⟩
    obtain ⟨ρ, hmodel, -⟩ := (hmodels σ).1 htrue
    exact ⟨ρ, hmodel⟩
  · intro ρ hmodel v hv
    symm
    apply value_eq_of_eval_clauses hmodel
    by_cases hone : v = 1
    · exact .inl hone
    · have hbeneath := ((mentions_clauses_iff_beneath wf).1 hv).resolve_left hone
      exact .inr ((mem_reach_iff wf).2 ⟨hone, hbeneath⟩)
  · intro v hv
    rcases (mentions_clauses_iff_beneath wf).1 hv with rfl | hbeneath
    · exact wf.truth_mem
    · exact hbeneath.mem wf hroots

instance (l : Lit) (g : Graph) : Decidable (l ∈ g) :=
  inferInstanceAs (Decidable (0 < l.var ∧ l.var < g.size))

def conjunctionGraph : Graph :=
  (Operation.run (.and (.pos 2) (.pos 3)) (Operation.run .input (Operation.run .input ∅).2).2).2

theorem nodes_conjunctionGraph :
    conjunctionGraph.nodes = #[.constant, .constant, .input, .input, .gate (.pos 2) (.pos 3)] := by
  have hnew : (Operation.run .input (Operation.run .input ∅).2).2.gates[(Lit.pos 2, Lit.pos 3)]? =
      none := Std.HashMap.getElem?_empty
  have hgate : conjunctionGraph = (gate (.pos 2) (.pos 3) _).2 := rfl
  rw [hgate, gate, hnew]
  rfl

theorem made_conjunctionGraph : conjunctionGraph.Made := by
  refine .step _ (.step _ (.step _ .empty ?_) ?_) ?_
  · simp [Operation.arguments]
  · simp [Operation.arguments]
  · simp only [Operation.arguments]
    decide

/-- A conjunction, given twice, cannot hold with the negation of an operand. -/
theorem dimacs_equivalent_conjunction :
    ¬ ∃ ρ, Cnf.eval ρ (conjunctionGraph.dimacs [.pos 4, .pos 4, ⟨2, true⟩]).clauses = true := by
  have hroots : ∀ l ∈ [Lit.pos 4, .pos 4, ⟨2, true⟩], l ∈ conjunctionGraph := by
    change ∀ l : Lit, l ∈ _ → 0 < l.var ∧ l.var < conjunctionGraph.nodes.size
    rw [nodes_conjunctionGraph]
    decide
  rw [(dimacs_equivalent made_conjunctionGraph hroots).2.1]
  rintro ⟨σ, htrue⟩
  have hnode : conjunctionGraph.nodes[4]? = some (.gate (.pos 2) (.pos 3)) := by
    rw [nodes_conjunctionGraph]
    rfl
  have hgate := htrue (.pos 4) (by simp)
  have hnot := htrue ⟨2, true⟩ (by simp)
  rw [eval_pos, made_conjunctionGraph.wellFormed.value_gate hnode, Bool.and_eq_true] at hgate
  have hboth : conjunctionGraph.eval σ ⟨2, true⟩ = !conjunctionGraph.eval σ (.pos 2) :=
    eval_not _ _ (.pos 2)
  rw [hboth, hgate.1] at hnot
  cases hnot

end Graph

end Lasso
