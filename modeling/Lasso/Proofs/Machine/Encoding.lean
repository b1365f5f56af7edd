import Lasso.Machine.Encoding
import Lasso.Proofs.Graph.Construction

/-! # What boolean variables stand for

A view gives a value to everything a boolean variable of the graph can stand for.  An expression
denotes a function of views if it has the value of that function under every assignment that
agrees with the view.  What an expression denotes stays as the encoding grows.
-/

namespace Lasso

set_option autoImplicit false

/-- Values of the variables of a machine, by index. -/
abbrev Letter := Nat → Bool

abbrev View := Origin → Bool

namespace View

def now (V : View) : Letter := fun i => V (.current i)

def next (V : View) : Letter := fun i => V (.next i)

def letter (V : View) (time : UInt64) : Letter := fun i => V (.timed i time)

/-- The view in which untimed forms have their values at a time and the one after it. -/
def atTime (V : View) (time : UInt64) : View
  | .current i => V (.timed i time)
  | .next i => V (.timed i (time + 1))
  | .timed i t => V (.timed i t)

@[simp] theorem now_atTime (V : View) (time : UInt64) : (V.atTime time).now = V.letter time := rfl

@[simp] theorem next_atTime (V : View) (time : UInt64) :
    (V.atTime time).next = V.letter (time + 1) := rfl

end View

namespace Encoding

/-- The maps of an encoding invert one another. -/
structure WellFormed (e : Encoding) : Prop where
  graph : e.graph.WellFormed
  origins : ∀ (v : Nat) (o : Origin), e.origins[v]? = some o → e.graph.nodes[v]? = some .input
  timeline : ∀ (i : Nat) (t : UInt64) (l : Lit), e.timeline[(i, t)]? = some l ↔
    l.negated = false ∧ e.origins[l.var]? = some (.timed i t)
  index : ∀ (i : Nat) (x : Variable), e.vars[i]? = some x → x.index = i
  positive : ∀ (i : Nat) (x : Variable), e.vars[i]? = some x →
    x.current.negated = false ∧ ∀ l, x.role = .state l → l.negated = false
  current : ∀ (i v : Nat), e.origins[v]? = some (.current i) ↔
    ∃ x, e.vars[i]? = some x ∧ x.current = .pos v
  next : ∀ (i v : Nat), e.origins[v]? = some (.next i) ↔
    ∃ x, e.vars[i]? = some x ∧ x.role = .state (.pos v)

/-- One encoding is another with nodes, timed variables and variables added. -/
structure Extends (e e' : Encoding) : Prop where
  graph : e.graph ≤ e'.graph
  origins : ∀ v, v < e.graph.size → e'.origins[v]? = e.origins[v]?
  vars : ∀ (i : Nat) (x : Variable), e.vars[i]? = some x → e'.vars[i]? = some x

instance : Preorder Encoding where
  le := Extends
  le_refl _ := ⟨le_refl _, fun _ _ => rfl, fun _ _ h => h⟩
  le_trans _ _ _ h₁₂ h₂₃ :=
    ⟨le_trans h₁₂.graph h₂₃.graph,
      fun v hv => (h₂₃.origins v (Nat.lt_of_lt_of_le hv (Graph.size_le_of_le h₁₂.graph))).trans
        (h₁₂.origins v hv),
      fun i x h => h₂₃.vars i x (h₁₂.vars i x h)⟩

theorem graph_le {e e' : Encoding} (h : e ≤ e') : e.graph ≤ e'.graph := h.graph

theorem WellFormed.lt_size {e : Encoding} (wf : e.WellFormed) {v : Nat} {o : Origin}
    (h : e.origins[v]? = some o) : v < e.graph.size :=
  (Array.getElem?_eq_some_iff.1 (wf.origins v o h)).1

theorem WellFormed.pos_mem {e : Encoding} (wf : e.WellFormed) {v : Nat} {o : Origin}
    (h : e.origins[v]? = some o) : Lit.pos v ∈ e.graph :=
  wf.graph.pos_mem_of_input (wf.origins v o h)

theorem WellFormed.value_origin {e : Encoding} (wf : e.WellFormed) {v : Nat} {o : Origin}
    (h : e.origins[v]? = some o) (ρ : Assignment) : e.graph.value ρ v = ρ v :=
  wf.graph.value_input (wf.origins v o h) ρ

theorem origin_of_le {e e' : Encoding} (wf : e.WellFormed) (h : e ≤ e') {v : Nat} {o : Origin}
    (ho : e.origins[v]? = some o) : e'.origins[v]? = some o :=
  (h.origins v (wf.lt_size ho)).trans ho

theorem timeline_of_le {e e' : Encoding} (wf : e.WellFormed) (wf' : e'.WellFormed) (h : e ≤ e')
    {i : Nat} {t : UInt64} {l : Lit} (hl : e.timeline[(i, t)]? = some l) :
    e'.timeline[(i, t)]? = some l := by
  obtain ⟨hpos, ho⟩ := (wf.timeline i t l).1 hl
  exact (wf'.timeline i t l).2 ⟨hpos, origin_of_le wf h ho⟩

/-- An assignment gives every boolean variable the value of what it stands for. -/
def Agrees (e : Encoding) (ρ : Assignment) (V : View) : Prop :=
  ∀ (v : Nat) (o : Origin), e.origins[v]? = some o → ρ v = V o

theorem Agrees.of_le {e e' : Encoding} (wf : e.WellFormed) (h : e ≤ e') {ρ : Assignment} {V : View}
    (hV : e'.Agrees ρ V) : e.Agrees ρ V :=
  fun v o ho => hV v o (origin_of_le wf h ho)

/-- The assignment of a view, where variables that stand for nothing are false. -/
def assign (e : Encoding) (V : View) : Assignment := fun v => (e.origins[v]?.map V).getD false

theorem agrees_assign (e : Encoding) (V : View) : e.Agrees (e.assign V) V := by
  intro v o ho
  simp [assign, ho]

/-- The view that an assignment shows. -/
def viewOf (e : Encoding) (ρ : Assignment) : View
  | .current i => (e.vars[i]?.map fun x => ρ x.current.var).getD false
  | .next i =>
    match e.vars[i]? with
    | some { role := .state l, .. } => ρ l.var
    | _ => false
  | .timed i t => (e.timeline[(i, t)]?.map fun l => ρ l.var).getD false

theorem WellFormed.agrees_viewOf {e : Encoding} (wf : e.WellFormed) (ρ : Assignment) :
    e.Agrees ρ (e.viewOf ρ) := by
  intro v o ho
  cases o with
  | current i =>
    obtain ⟨x, hx, hcur⟩ := (wf.current i v).1 ho
    simp [viewOf, hx, hcur]
  | next i =>
    obtain ⟨x, hx, hrole⟩ := (wf.next i v).1 ho
    obtain ⟨name, index, cur, role⟩ := x
    cases hrole
    simp [viewOf, hx]
  | timed i t =>
    have hl := (wf.timeline i t (.pos v)).2 ⟨rfl, ho⟩
    simp [viewOf, hl]

/-- The expression has the values of a function of views. -/
structure Denotes (e : Encoding) (l : Lit) (φ : View → Bool) : Prop where
  mem : l ∈ e.graph
  eval : ∀ ρ V, e.Agrees ρ V → e.graph.eval ρ l = φ V

theorem Denotes.of_le {e e' : Encoding} (wf : e.WellFormed) (h : e ≤ e') {l : Lit} {φ : View → Bool}
    (hl : e.Denotes l φ) : e'.Denotes l φ where
  mem := Graph.mem_of_le (graph_le h) hl.mem
  eval ρ V hV := by
    rw [Graph.eval_eq_of_le (graph_le h) ρ hl.mem]
    exact hl.eval ρ V (hV.of_le wf h)

theorem Denotes.congr {e : Encoding} {l : Lit} {φ ψ : View → Bool} (hl : e.Denotes l φ)
    (heq : ∀ V, φ V = ψ V) : e.Denotes l ψ :=
  ⟨hl.mem, fun ρ V hV => (hl.eval ρ V hV).trans (heq V)⟩

theorem Denotes.not {e : Encoding} {l : Lit} {φ : View → Bool} (hl : e.Denotes l φ) :
    e.Denotes l.not (fun V => !φ V) :=
  ⟨hl.mem, fun ρ V hV => by rw [Graph.eval_not, hl.eval ρ V hV]⟩

theorem denotes_truth {e : Encoding} (wf : e.WellFormed) : e.Denotes Graph.truth (fun _ => true) :=
  ⟨wf.graph.truth_mem, fun ρ _ _ => Graph.eval_truth _ ρ⟩

theorem denotes_falsity {e : Encoding} (wf : e.WellFormed) :
    e.Denotes Graph.falsity (fun _ => false) :=
  ⟨wf.graph.falsity_mem, fun ρ _ _ => Graph.eval_falsity _ ρ⟩

theorem WellFormed.denotes_origin {e : Encoding} (wf : e.WellFormed) {v : Nat} {o : Origin}
    (h : e.origins[v]? = some o) : e.Denotes (.pos v) (fun V => V o) :=
  ⟨wf.pos_mem h, fun ρ V hV => by rw [Graph.eval_pos, wf.value_origin h, hV v o h]⟩

/-- What an expression denotes is its value under the assignment of a view. -/
theorem Denotes.eq_eval_assign {e : Encoding} {l : Lit} {φ : View → Bool} (hl : e.Denotes l φ)
    (V : View) : φ V = e.graph.eval (e.assign V) l :=
  (hl.eval _ V (e.agrees_assign V)).symm

/-- From `e`, a construction made an expression for a function of views. -/
structure Builds (e : Encoding) (r : Lit × Encoding) (φ : View → Bool) : Prop where
  wf : r.2.WellFormed
  grows : e ≤ r.2
  vars : r.2.vars = e.vars
  denotes : r.2.Denotes r.1 φ

theorem Builds.of_denotes {e : Encoding} (wf : e.WellFormed) {l : Lit} {φ : View → Bool}
    (hl : e.Denotes l φ) : e.Builds (l, e) φ :=
  ⟨wf, le_refl e, rfl, hl⟩

theorem Builds.after {e : Encoding} {r r' : Lit × Encoding} {φ ψ : View → Bool}
    (h : e.Builds r φ) (h' : r.2.Builds r' ψ) : e.Builds r' ψ :=
  ⟨h'.wf, le_trans h.grows h'.grows, h'.vars.trans h.vars, h'.denotes⟩

theorem Builds.congr {e : Encoding} {r : Lit × Encoding} {φ ψ : View → Bool} (h : e.Builds r φ)
    (heq : ∀ V, φ V = ψ V) : e.Builds r ψ :=
  ⟨h.wf, h.grows, h.vars, h.denotes.congr heq⟩

theorem Builds.denotes_old {e : Encoding} {r : Lit × Encoding} {φ ψ : View → Bool}
    (h : e.Builds r φ) (wf : e.WellFormed) {l : Lit} (hl : e.Denotes l ψ) : r.2.Denotes l ψ :=
  hl.of_le wf h.grows

theorem WellFormed.of_graph {e : Encoding} (wf : e.WellFormed) {g : Graph} (wfg : g.WellFormed)
    (h : e.graph ≤ g) : ({ e with graph := g } : Encoding).WellFormed where
  graph := wfg
  origins v o ho := (Graph.nodes_eq_of_le h (wf.lt_size ho)).trans (wf.origins v o ho)
  timeline := wf.timeline
  index := wf.index
  positive := wf.positive
  current := wf.current
  next := wf.next

theorem le_of_graph_le {e : Encoding} {g : Graph} (h : e.graph ≤ g) :
    e ≤ ({ e with graph := g } : Encoding) :=
  ⟨h, fun _ _ => rfl, fun _ _ hx => hx⟩

theorem bind_apply {α β : Type} (m : StateM Encoding α) (k : α → StateM Encoding β)
    (e : Encoding) : (m >>= k) e = k (m e).1 (m e).2 := rfl

theorem onGraph_eq {α : Type} (m : StateM Graph α) (e : Encoding) :
    onGraph m e = ((m e.graph).1, { e with graph := (m e.graph).2 }) := rfl

/-- A connective on the graph is the same connective on what expressions denote. -/
theorem onGraph_builds {join : Lit → Lit → StateM Graph Lit} {op : Bool → Bool → Bool}
    (hjoin : Graph.Computes join op) {e : Encoding} (wf : e.WellFormed) {a b : Lit}
    {φ ψ : View → Bool} (ha : e.Denotes a φ) (hb : e.Denotes b ψ) :
    e.Builds (onGraph (join a b) e) (fun V => op (φ V) (ψ V)) := by
  have h := hjoin wf.graph ha.mem hb.mem
  refine ⟨wf.of_graph h.wf h.grows, le_of_graph_le h.grows, rfl, h.mem, fun ρ V hV => ?_⟩
  have hV' : e.Agrees ρ V := hV.of_le wf (le_of_graph_le h.grows)
  rw [onGraph_eq, h.eval, ha.eval ρ V hV', hb.eval ρ V hV']

end Encoding

end Lasso
