import Mathlib
import Lasso.Proofs.Bounded.Trace
import Lasso.Proofs.Graph.Canonical

/-! # Values read from a solution

A solver has values for the variables of its clauses.  The values of the nodes of a graph are
computed from them when an expression is asked for that came after the last computation, and they
are kept while the graph grows.  Whenever an expression is asked for, its value is that under the
values of the solver, where variables that the solver does not know are false.
-/

namespace Lasso

set_option autoImplicit false

/-- The values of a solver, the largest variable that it knows, and the values of the nodes that
there were when they were computed last. -/
structure Solution where
  values : Assignment
  maxVar : Nat
  nodes : Array Bool

namespace Solution

open Lasso.Graph

def value (s : Solution) (l : Lit) : Bool :=
  if l = truth then true
  else if l = falsity then false
  else if s.maxVar < l.var then l.negated
  else l.eval s.values

/-- The values of the constant and the free variables of a graph, before those of the gates are
computed. -/
def seed (s : Solution) (g : Graph) : Array Bool :=
  Array.ofFn fun v : Fin g.size =>
    if v.val = 1 then !truth.negated
    else decide (2 ≤ v.val) && g.isInput (.pos v) && s.value (.pos v)

section

-- computes the values of the gates of a graph, given those of all other nodes
variable (complete : Graph → Array Bool → Array Bool)

/-- The value of an expression.  The values of all nodes are computed again if the expression came
later than the ones there are. -/
def eval (g : Graph) (l : Lit) (s : Solution) : Option Bool × Solution :=
  if isConstant l then (some (l = truth), s)
  else
    let s := if s.nodes.size ≤ l.var then { s with nodes := complete g (s.seed g) } else s
    (s.nodes[l.var]?.map (· == !l.negated), s)

/-- One construction, or one expression that is evaluated. -/
inductive Step (p : Graph × Solution) : Graph × Solution → Prop where
  | construct (o : Operation) (hargs : ∀ l ∈ o.arguments, l ∈ p.1) : Step p ((o.run p.1).2, p.2)
  | eval (l : Lit) (hl : l ∈ p.1) : Step p (p.1, (p.2.eval complete p.1 l).2)

abbrev Steps : Graph × Solution → Graph × Solution → Prop :=
  Relation.ReflTransGen (Step complete)

end

/-- The values of all variables: what the solver does not know is false. -/
def assignment (s : Solution) : Assignment := fun v => decide (v ≤ s.maxVar) && s.values v

theorem assignment_congr {s s' : Solution} (hvalues : s'.values = s.values)
    (hmax : s'.maxVar = s.maxVar) : s'.assignment = s.assignment := by
  funext v
  rw [assignment, assignment, hvalues, hmax]

theorem value_eq_eval_assignment (s : Solution) {l : Lit} (hl : l.var ≠ 1) :
    s.value l = l.eval s.assignment := by
  have htruth : l ≠ truth := fun h => hl (congrArg Lit.var h)
  have hfalsity : l ≠ falsity := fun h => hl (congrArg Lit.var h)
  simp only [value, if_neg htruth, if_neg hfalsity, Lit.eval, assignment]
  split
  · rename_i hlt
    simp [Nat.not_le.2 hlt]
  · rename_i hle
    simp [Nat.not_lt.1 hle]

/-- What it means to compute the values of the gates. -/
structure Completes (g : Graph) (before after : Array Bool) : Prop where
  size : after.size = before.size
  kept : ∀ v : Nat, (∀ a b, g.nodes[v]? ≠ some (.gate a b)) → after[v]? = before[v]?
  gate : ∀ (v : Nat) (a b : Lit) (x y : Bool), g.nodes[v]? = some (.gate a b) →
    after[a.var]? = some x → after[b.var]? = some y →
      after[v]? = some ((a.negated ^^ x) && (b.negated ^^ y))

theorem getElem?_seed {s : Solution} {g : Graph} {v : Nat} (hv : v < g.size) :
    (s.seed g)[v]? = some (if v = 1 then true
      else decide (2 ≤ v) && g.isInput (.pos v) && s.value (.pos v)) := by
  simp [seed, hv, truth]

theorem Completes.getElem?_eq {g : Graph} (wf : g.WellFormed) {s : Solution} {vals : Array Bool}
    (h : Completes g (s.seed g) vals) {v : Nat} (hpos : 0 < v) (hv : v < g.size) :
    vals[v]? = some (g.value s.assignment v) := by
  induction v using Nat.strongRecOn with
  | _ v ih =>
    cases hnode : g.nodes[v]? with
    | none =>
      have := Array.getElem?_eq_none_iff.1 hnode
      simp only [Graph.size] at hv
      omega
    | some node =>
      cases node with
      | constant =>
        have hlt := (wf.constants v).1 hnode
        obtain rfl : v = 1 := by omega
        rw [h.kept 1 (by simp [hnode]), getElem?_seed hv, value_one, if_pos rfl]
      | input =>
        have hone := wf.ne_one_of_input hnode
        have hinput : g.isInput (.pos v) = true := by
          simp [isInput, isConstant, hone, operands?_eq_none_of_input hnode]
        rw [h.kept v (by simp [hnode]), getElem?_seed hv, if_neg hone, hinput,
          s.value_eq_eval_assignment hone, wf.value_input hnode]
        have htwo : 2 ≤ v := by omega
        simp [htwo, Lit.eval]
      | gate a b =>
        -- operands have smaller numbers than their gate
        obtain ⟨ha, hb⟩ := wf.operands v a b hnode
        rw [h.gate v a b _ _ hnode (ih a.var ha.2 ha.1 (by omega)) (ih b.var hb.2 hb.1 (by omega)),
          wf.value_gate hnode]
        rfl

/-- Computes the value of a node from those of its operands, if it is a gate. -/
def fill (g : Graph) (vals : Array Bool) (v : Nat) : Array Bool :=
  match g.nodes[v]? with
  | some (.gate a b) => vals.setIfInBounds v
    ((a.negated ^^ vals.getD a.var false) && (b.negated ^^ vals.getD b.var false))
  | _ => vals

/-- Computes the values of the gates below a number, in order. -/
def fillTo (g : Graph) (before : Array Bool) : Nat → Array Bool
  | 0 => before
  | n + 1 => fill g (fillTo g before n) n

def fillAll (g : Graph) (before : Array Bool) : Array Bool := fillTo g before g.size

theorem size_fill (g : Graph) (vals : Array Bool) (v : Nat) : (fill g vals v).size = vals.size := by
  unfold fill
  split
  · exact Array.size_setIfInBounds
  · rfl

theorem getElem?_fill_of_ne {g : Graph} {vals : Array Bool} {v w : Nat}
    (h : w = v → ∀ a b, g.nodes[w]? ≠ some (.gate a b)) : (fill g vals v)[w]? = vals[w]? := by
  unfold fill
  split
  · rename_i a b hnode
    apply Array.getElem?_setIfInBounds_ne
    rintro rfl
    exact h rfl a b hnode
  · rfl

theorem getElem?_fill {g : Graph} {vals : Array Bool} {v : Nat} (hv : v < vals.size) {a b : Lit}
    (hnode : g.nodes[v]? = some (.gate a b)) {x y : Bool} (hx : vals[a.var]? = some x)
    (hy : vals[b.var]? = some y) :
    (fill g vals v)[v]? = some ((a.negated ^^ x) && (b.negated ^^ y)) := by
  simp only [fill, hnode]
  rw [Array.getElem?_setIfInBounds_self_of_lt hv, Array.getD_eq_getD_getElem?,
    Array.getD_eq_getD_getElem?, hx, hy]
  rfl

theorem size_fillTo (g : Graph) (before : Array Bool) (n : Nat) :
    (fillTo g before n).size = before.size := by
  induction n with
  | zero => rfl
  | succ n ih => rw [fillTo, size_fill, ih]

theorem getElem?_fillTo_of_ne {g : Graph} {v : Nat} (hv : ∀ a b, g.nodes[v]? ≠ some (.gate a b))
    (before : Array Bool) (n : Nat) : (fillTo g before n)[v]? = before[v]? := by
  induction n with
  | zero => rfl
  | succ n ih => rw [fillTo, getElem?_fill_of_ne fun _ => hv, ih]

/-- A gate is filled after its operands, and neither it nor they are filled again. -/
theorem getElem?_fillTo {g : Graph} (wf : g.WellFormed) {before : Array Bool}
    (hsize : before.size = g.size) {v : Nat} {a b : Lit} (hnode : g.nodes[v]? = some (.gate a b))
    {x y : Bool} {n : Nat} (hv : v < n) (hx : (fillTo g before n)[a.var]? = some x)
    (hy : (fillTo g before n)[b.var]? = some y) :
    (fillTo g before n)[v]? = some ((a.negated ^^ x) && (b.negated ^^ y)) := by
  obtain ⟨⟨-, ha⟩, -, hb⟩ := wf.operands v a b hnode
  induction n with
  | zero => exact absurd hv (Nat.not_lt_zero v)
  | succ n ih =>
    rw [fillTo] at hx hy ⊢
    rw [getElem?_fill_of_ne fun h => absurd h (by omega)] at hx hy
    rcases Nat.lt_or_eq_of_le (Nat.le_of_lt_succ hv) with hlt | rfl
    · rw [getElem?_fill_of_ne fun h => absurd h (by omega)]
      exact ih hlt hx hy
    · have hlt : v < g.size := (Array.getElem?_eq_some_iff.1 hnode).1
      exact getElem?_fill (by rwa [size_fillTo, hsize]) hnode hx hy

theorem completes_fillAll {g : Graph} (wf : g.WellFormed) {before : Array Bool}
    (hsize : before.size = g.size) : Completes g before (fillAll g before) where
  size := size_fillTo g before g.size
  kept _ hv := getElem?_fillTo_of_ne hv before g.size
  gate _ _ _ _ _ hnode :=
    getElem?_fillTo wf hsize hnode (Array.getElem?_eq_some_iff.1 hnode).1

/-- The values of nodes that there are are right. -/
structure Sound (g : Graph) (s : Solution) : Prop where
  size_le : s.nodes.size ≤ g.size
  node : ∀ v, 0 < v → v < s.nodes.size → s.nodes[v]? = some (g.value s.assignment v)

theorem Sound.of_le {g g' : Graph} {s : Solution} (h : s.Sound g) (hle : g ≤ g') : s.Sound g' where
  size_le := Nat.le_trans h.size_le (size_le_of_le hle)
  node v hpos hv := by
    rw [value_eq_of_le hle _ (Nat.lt_of_lt_of_le hv h.size_le)]
    exact h.node v hpos hv

theorem Sound.read_eq {g : Graph} {s : Solution} (h : s.Sound g) {l : Lit} (hpos : 0 < l.var)
    (hl : l.var < s.nodes.size) :
    s.nodes[l.var]?.map (· == !l.negated) = some (g.eval s.assignment l) := by
  rw [h.node l.var hpos hl, Option.map_some, Graph.eval]
  cases l.negated <;> cases g.value s.assignment l.var <;> rfl

section

variable {complete : Graph → Array Bool → Array Bool}
  (hcomplete : ∀ (g : Graph) (before : Array Bool), g.Made → before.size = g.size →
    Completes g before (complete g before))

include hcomplete

theorem sound_complete {g : Graph} (hg : g.Made) (s : Solution) :
    Sound g { s with nodes := complete g (s.seed g) } ∧ (complete g (s.seed g)).size = g.size := by
  have hseed : (s.seed g).size = g.size := by simp [seed]
  have hfill := hcomplete g (s.seed g) hg hseed
  have hsize : (complete g (s.seed g)).size = g.size := hfill.size.trans hseed
  refine ⟨⟨Nat.le_of_eq hsize, fun v hpos hv => ?_⟩, hsize⟩
  exact hfill.getElem?_eq hg.wellFormed hpos (hsize ▸ hv)

/-- Every expression of the graph has a value, which is that under the assignment, and the values
that are kept stay right. -/
theorem Sound.eval_eq {g : Graph} (hg : g.Made) {s : Solution} (h : s.Sound g) {l : Lit}
    (hl : l ∈ g) :
    (s.eval complete g l).1 = some (g.eval s.assignment l) ∧ (s.eval complete g l).2.Sound g ∧
      (s.eval complete g l).2.values = s.values ∧ (s.eval complete g l).2.maxVar = s.maxVar := by
  unfold Solution.eval
  split
  case isTrue hconstant =>
    refine ⟨?_, h, rfl, rfl⟩
    rcases Lit.eq_or_eq_not (b := truth) (eq_of_beq hconstant) with rfl | rfl
    · simp
    · simp [Lit.not, truth, Graph.eval, value_one]
  dsimp only
  split
  -- the expression came after the last computation, and that is made again for the whole graph
  · obtain ⟨hsound, hsize⟩ := sound_complete hcomplete hg s
    exact ⟨hsound.read_eq hl.1 (hsize ▸ hl.2), hsound, rfl, rfl⟩
  · rename_i hlt
    exact ⟨h.read_eq hl.1 (Nat.not_le.1 hlt), h, rfl, rfl⟩

theorem Step.sound {p q : Graph × Solution} (h : Step complete p q) (hp : p.1.Made)
    (hs : p.2.Sound p.1) : q.1.Made ∧ p.1 ≤ q.1 ∧ q.2.Sound q.1 ∧
      q.2.values = p.2.values ∧ q.2.maxVar = p.2.maxVar := by
  cases h with
  | construct o hargs =>
    have hgrows := (o.run_builds hp.wellFormed hargs).grows
    exact ⟨.step o hp hargs, hgrows, hs.of_le hgrows, rfl, rfl⟩
  | eval l hl =>
    obtain ⟨-, hsound, hvalues, hmax⟩ := hs.eval_eq hcomplete hp hl
    exact ⟨hp, le_refl _, hsound, hvalues, hmax⟩

theorem Steps.sound {p q : Graph × Solution} (h : Steps complete p q) (hp : p.1.Made)
    (hs : p.2.Sound p.1) : q.1.Made ∧ p.1 ≤ q.1 ∧ q.2.Sound q.1 ∧
      q.2.values = p.2.values ∧ q.2.maxVar = p.2.maxVar := by
  induction h with
  | refl => exact ⟨hp, le_refl _, hs, rfl, rfl⟩
  | tail _ hstep ih =>
    obtain ⟨hmade, hle, hsound, hvalues, hmax⟩ := ih
    obtain ⟨hmade', hle', hsound', hvalues', hmax'⟩ := hstep.sound hcomplete hmade hsound
    exact ⟨hmade', le_trans hle hle', hsound', hvalues'.trans hvalues, hmax'.trans hmax⟩

end

/-- An expression was made by a connective at some time, when its arguments were there. -/
def Constructed (g : Graph) (o : Operation) (l : Lit) : Prop :=
  ∃ g' : Graph, g'.Made ∧ (∀ k ∈ o.arguments, k ∈ g') ∧ (o.run g').1 = l ∧
    Graph.Steps (o.run g').2 g

/-- Values of the expressions of a graph commute with the connectives, whenever these were made. -/
structure Commutes (g : Graph) (answer : Lit → Bool) : Prop where
  not : ∀ l ∈ g, answer l.not = !answer l
  and : ∀ a b l, Constructed g (.and a b) l → answer l = (answer a && answer b)
  or : ∀ a b l, Constructed g (.or a b) l → answer l = (answer a || answer b)
  implies : ∀ a b l, Constructed g (.implies a b) l → answer l = (!answer a || answer b)
  xor : ∀ a b l, Constructed g (.xor a b) l → answer l = (answer a ^^ answer b)
  iff : ∀ a b l, Constructed g (.iff a b) l → answer l = (answer a == answer b)
  ite : ∀ c a b l, Constructed g (.ite c a b) l →
    answer l = bif answer c then answer a else answer b
  all : ∀ ls l, Constructed g (.all ls) l → answer l = ls.all answer
  any : ∀ ls l, Constructed g (.any ls) l → answer l = ls.any answer

theorem meaning_congr {o : Operation} (ho : o ≠ .input) {g g' : Graph} {ρ : Assignment}
    (h : ∀ l ∈ o.arguments, g.eval ρ l = g'.eval ρ l) : o.meaning g ρ = o.meaning g' ρ := by
  cases o with
  | input => exact absurd rfl ho
  | all ls =>
    rw [Operation.meaning, Operation.meaning, Bool.eq_iff_iff, List.all_eq_true, List.all_eq_true]
    exact forall₂_congr fun l hl => by rw [h l hl]
  | any ls =>
    rw [Operation.meaning, Operation.meaning, Bool.eq_iff_iff, List.any_eq_true, List.any_eq_true]
    exact exists_congr fun l => and_congr_right fun hl => by rw [h l hl]
  | ite c a b =>
    obtain ⟨hc, ha, hb⟩ := Operation.forall_triple h
    rw [Operation.meaning, Operation.meaning, hc, ha, hb]
  | _ =>
    obtain ⟨ha, hb⟩ := Operation.forall_pair h
    rw [Operation.meaning, Operation.meaning, ha, hb]

theorem Constructed.eval_eq {g : Graph} {o : Operation} {l : Lit} (h : Constructed g o l)
    (ho : o ≠ .input) (ρ : Assignment) : g.eval ρ l = o.meaning g ρ := by
  obtain ⟨g', hg', hargs, rfl, hsteps⟩ := h
  have hbuilds := o.run_builds hg'.wellFormed hargs
  obtain ⟨-, hle⟩ := (hg'.step o hargs).steps hsteps
  have hold : ∀ k ∈ o.arguments, g.eval ρ k = g'.eval ρ k := fun k hk =>
    eval_eq_of_le (le_trans hbuilds.grows hle) ρ (hargs k hk)
  rw [eval_eq_of_le hle ρ hbuilds.mem, hbuilds.eval, meaning_congr ho hold]

theorem commutes_eval {g : Graph} (ρ : Assignment) : Commutes g (g.eval ρ) where
  not l _ := eval_not g ρ l
  and _ _ _ h := h.eval_eq nofun ρ
  or _ _ _ h := h.eval_eq nofun ρ
  implies _ _ _ h := h.eval_eq nofun ρ
  xor _ _ _ h := h.eval_eq nofun ρ
  iff _ _ _ h := h.eval_eq nofun ρ
  ite _ _ _ _ h := h.eval_eq nofun ρ
  all _ _ h := h.eval_eq nofun ρ
  any _ _ h := h.eval_eq nofun ρ

/-- The expressions that were solved hold, although the solver knows only the variables beneath
them. -/
theorem eval_assignment_of_model {g : Graph} (wf : g.WellFormed) {roots : List Lit} {s : Solution}
    (hmodel : Cnf.eval s.values (g.clauses roots) = true)
    (hmax : IsGreatest {v | (g.clauses roots).Mentions v} s.maxVar) {l : Lit} (hl : l ∈ roots) :
    g.eval s.assignment l = true := by
  have hroot := root_mem_reach g hl
  have hsame : g.value s.assignment l.var = g.value s.values l.var := by
    apply value_congr_of_reach _ hroot
    intro v hv _
    have hmentions := (mentions_clauses_iff_beneath wf).2 (.inr ((mem_reach_iff wf).1 hv).2)
    simp [assignment, hmax.2 hmentions]
  rw [Graph.eval, hsame, value_eq_of_eval_clauses hmodel hroot]
  exact (eval_clauses.1 hmodel).2 l hl

theorem maxVar_lt_size {g : Graph} (wf : g.WellFormed) {roots : List Lit}
    (hroots : ∀ l ∈ roots, l ∈ g) {s : Solution}
    (hmax : IsGreatest {v | (g.clauses roots).Mentions v} s.maxVar) : s.maxVar < g.size := by
  rcases (mentions_clauses_iff_beneath wf).1 hmax.1 with hone | hbeneath
  · have := wf.two_le_size
    omega
  · exact (hbeneath.mem wf hroots).2

theorem eval_assignment_eq_value {g : Graph} (s : Solution) {l : Lit}
    (hl : isConstant l ∨ g.isInput l) : g.eval s.assignment l = s.value l := by
  rcases hl with hconstant | hinput
  · rcases Lit.eq_or_eq_not (b := truth) (eq_of_beq hconstant) with rfl | rfl
    · exact eval_truth g _
    · exact eval_falsity g _
  · obtain ⟨hone, hops⟩ : l.var ≠ 1 ∧ g.operands? l.var = none := by
      simpa [isInput, isConstant] using hinput
    rw [s.value_eq_eval_assignment hone, Graph.eval, value_of_operands?_eq_none hone hops]
    rfl

/-- Whatever is constructed and evaluated after some expressions were solved, and in whatever order,
an expression has one value whenever it is asked for.  The expressions that were solved hold,
values commute with the connectives, and those of constants and variables are the ones of the
solver, where a variable that it does not know is false, as is every one that was made since. -/
theorem evaluation_consistent {complete : Graph → Array Bool → Array Bool}
    (hcomplete : ∀ (g : Graph) (before : Array Bool), g.Made → before.size = g.size →
      Completes g before (complete g before))
    {g₀ g : Graph} (hg : g₀.Made) {roots : List Lit} (hroots : ∀ l ∈ roots, l ∈ g₀)
    {s₀ s : Solution} (hnodes : s₀.nodes = #[])
    (hmodel : Cnf.eval s₀.values (g₀.clauses roots) = true)
    (hmax : IsGreatest {v | (g₀.clauses roots).Mentions v} s₀.maxVar)
    (h : Steps complete (g₀, s₀) (g, s)) :
    let answer : Lit → Bool := g.eval s.assignment
    (∀ (g' : Graph) (s' : Solution), Steps complete (g, s) (g', s') →
      ∀ l ∈ g, (s'.eval complete g' l).1 = some (answer l)) ∧
    (∀ l ∈ roots, answer l = true) ∧
    Commutes g answer ∧
    (∀ l ∈ g, isConstant l ∨ g.isInput l → answer l = s.value l) ∧
    (∀ v, g.nodes[v]? = some .input →
      (g₀.size ≤ v → s.maxVar < v) ∧ (s.maxVar < v → answer (.pos v) = false)) ∧
    ∀ l ∈ g, answer l = g.evaluate s.assignment l := by
  intro answer
  have wf₀ := hg.wellFormed
  have hsound₀ : s₀.Sound g₀ := by
    constructor
    · simp [hnodes]
    · simp [hnodes]
  obtain ⟨hmade, hle, hsound, hvalues, hmaxVar⟩ := Steps.sound hcomplete h hg hsound₀
  have wf := hmade.wellFormed
  have hassignment := assignment_congr hvalues hmaxVar
  refine ⟨fun g' s' h' l hl => ?_, fun l hl => ?_, commutes_eval _,
    fun _ _ => eval_assignment_eq_value s, fun v hv => ⟨fun hnew => ?_, fun hbeyond => ?_⟩,
    fun l hl => ?_⟩
  · obtain ⟨hmade', hle', hsound', hvalues', hmaxVar'⟩ := Steps.sound hcomplete h' hmade hsound
    rw [(hsound'.eval_eq hcomplete hmade' (mem_of_le hle' hl)).1,
      assignment_congr hvalues' hmaxVar', eval_eq_of_le hle' _ hl]
  · have htrue := eval_assignment_of_model wf₀ hmodel hmax hl
    rwa [← hassignment, ← eval_eq_of_le hle _ (hroots l hl)] at htrue
  · have hlast := maxVar_lt_size wf₀ hroots hmax
    exact hmaxVar.trans_lt (Nat.lt_of_lt_of_le hlast hnew)
  · change g.eval s.assignment (.pos v) = false
    rw [eval_pos, wf.value_input hv]
    simp [assignment, hbeyond]
  · exact (evaluate_eq wf _ hl).symm

def extendedGraph : Graph := (Operation.input.run conjunctionGraph).2

def foundSolution : Solution := ⟨fun _ => true, 4, #[]⟩

def readSolution : Solution := (foundSolution.eval fillAll conjunctionGraph (.pos 4)).2

def laterSolution : Solution := (readSolution.eval fillAll extendedGraph ⟨5, true⟩).2

theorem made_extendedGraph : extendedGraph.Made :=
  .step .input made_conjunctionGraph (List.forall_mem_nil _)

theorem steps_laterSolution :
    Steps fillAll (conjunctionGraph, foundSolution) (extendedGraph, laterSolution) := by
  have hread : Step fillAll (conjunctionGraph, foundSolution) (conjunctionGraph, readSolution) :=
    .eval (.pos 4) ⟨by decide, by cbv⟩
  have hextended : Step fillAll (conjunctionGraph, readSolution) (extendedGraph, readSolution) :=
    .construct .input (List.forall_mem_nil _)
  have hlater : Step fillAll (extendedGraph, readSolution) (extendedGraph, laterSolution) :=
    .eval ⟨5, true⟩ ⟨by decide, by cbv⟩
  exact ((Relation.ReflTransGen.single hread).tail hextended).tail hlater

/-- The exclusive disjunction of the conjunction and the variable, evaluated with the values that
the nodes had before it was made. -/
theorem evaluation_consistent_later :
    let o : Operation := .xor (.pos 4) (.pos 5)
    let r := o.run extendedGraph
    Steps fillAll (conjunctionGraph, foundSolution) (r.2, laterSolution) ∧
      laterSolution.nodes.size = 6 ∧ r.2.size = 9 ∧
      (laterSolution.eval fillAll r.2 (.pos 5)).1 = some false ∧
      (laterSolution.eval fillAll r.2 r.1).1 = some true := by
  intro o r
  have hroots : ∀ l ∈ [Lit.pos 4], l ∈ conjunctionGraph :=
    List.forall_mem_singleton.2 ⟨by decide, by cbv⟩
  have hargs : ∀ l ∈ o.arguments, l ∈ extendedGraph :=
    List.forall_mem_cons.2 ⟨⟨by decide, by cbv⟩, List.forall_mem_singleton.2 ⟨by decide, by cbv⟩⟩
  have hsteps : Steps fillAll (conjunctionGraph, foundSolution) (r.2, laterSolution) :=
    steps_laterSolution.tail (.construct o hargs)
  have hmax := isGreatest_dimacs_maxVar made_conjunctionGraph.wellFormed [.pos 4]
  have hfour : (conjunctionGraph.dimacs [.pos 4]).maxVar = 4 := by cbv
  rw [hfour] at hmax
  obtain ⟨hanswer, htrue, hcommutes, -, hinputs, -⟩ := evaluation_consistent
    (fun _ _ hg => completes_fillAll hg.wellFormed) made_conjunctionGraph hroots rfl (by cbv) hmax
    hsteps
  have hnode : r.2.nodes[5]? = some .input := by cbv
  obtain ⟨hsince, hunknown⟩ := hinputs 5 hnode
  have hfalse := hunknown (hsince (by cbv))
  have hvalue := hcommutes.xor (.pos 4) (.pos 5) r.1
    ⟨extendedGraph, made_extendedGraph, hargs, rfl, .refl⟩
  rw [htrue _ (List.mem_singleton_self _), hfalse] at hvalue
  have hsize : r.2.size = 9 := by cbv
  have hnodes : laterSolution.nodes.size = 6 := by cbv
  refine ⟨hsteps, hnodes, hsize, ?_, ?_⟩
  · rw [hanswer r.2 laterSolution .refl (.pos 5) ⟨by decide, by rw [hsize]; decide⟩]
    exact congrArg some hfalse
  · rw [hanswer r.2 laterSolution .refl r.1 (o.run_builds made_extendedGraph.wellFormed hargs).mem]
    exact congrArg some hvalue

end Solution

end Lasso
