import Lasso.Machine.Timing
import Lasso.Proofs.Machine.Allocation

/-! # Rebuilding expressions

Rebuilding an expression is substitution: the result has, under an assignment, the value that the
expression has under the assignment of its leaves.  What has been rebuilt before is used again.
-/

namespace Lasso

set_option autoImplicit false

namespace Encoding

/-- How the values of rebuilt leaves relate to those of the leaves, in terms of the encoding so
far. -/
structure Leaves (leaf : Nat → StateM Encoding Lit)
    (R : Encoding → Assignment → Assignment → Prop) : Prop where
  anti : ∀ {e e' : Encoding} {ρ σ : Assignment}, e.WellFormed → e'.WellFormed → e ≤ e' →
    R e' ρ σ → R e ρ σ
  wf : ∀ {e : Encoding} (v : Nat), e.WellFormed → (leaf v e).2.WellFormed
  grows : ∀ {e : Encoding} (v : Nat), e.WellFormed → e ≤ (leaf v e).2
  vars : ∀ {e : Encoding} (v : Nat), e.WellFormed → (leaf v e).2.vars = e.vars
  mem : ∀ {e : Encoding} {v : Nat}, e.WellFormed → e.graph.nodes[v]? = some .input →
    (leaf v e).1 ∈ (leaf v e).2.graph
  eval : ∀ {e : Encoding} {v : Nat}, e.WellFormed → e.graph.nodes[v]? = some .input →
    ∀ ρ σ, R (leaf v e).2 ρ σ → (leaf v e).2.graph.eval ρ (leaf v e).1 = σ v

/-- What is remembered of rebuilt nodes is right. -/
def Remembers (R : Encoding → Assignment → Assignment → Prop) (e : Encoding)
    (memo : Std.HashMap Nat Lit) : Prop :=
  ∀ (v : Nat) (l : Lit), memo[v]? = some l → Lit.pos v ∈ e.graph ∧ l ∈ e.graph ∧
    ∀ ρ σ, R e ρ σ → e.graph.eval ρ l = e.graph.value σ v

structure Rebuilds (R : Encoding → Assignment → Assignment → Prop) (e : Encoding) (l : Lit)
    (e' : Encoding) (φ : Assignment → Bool) : Prop where
  wf : e'.WellFormed
  grows : e ≤ e'
  vars : e'.vars = e.vars
  mem : l ∈ e'.graph
  eval : ∀ ρ σ, R e' ρ σ → e'.graph.eval ρ l = φ σ

theorem Rebuilds.congr {R : Encoding → Assignment → Assignment → Prop} {e e' : Encoding} {l : Lit}
    {φ ψ : Assignment → Bool} (h : Rebuilds R e l e' φ) (heq : ∀ σ, φ σ = ψ σ) :
    Rebuilds R e l e' ψ :=
  ⟨h.wf, h.grows, h.vars, h.mem, fun ρ σ hR => (h.eval ρ σ hR).trans (heq σ)⟩

theorem rebuildNode_eq (leaf : Nat → StateM Encoding Lit) (v : Nat) (memo : Std.HashMap Nat Lit)
    (e : Encoding) :
    rebuildNode leaf v memo e =
      if v = 1 then ((Graph.truth, memo), e)
      else match memo[v]? with
        | some l => ((l, memo), e)
        | none =>
          match e.graph.operands? v with
          | none => (((leaf v e).1, memo.insert v (leaf v e).1), (leaf v e).2)
          | some p =>
            let left := rebuildNode leaf p.1.1.var memo e
            let right := rebuildNode leaf p.1.2.var left.1.2 left.2
            let gate := onGraph (Graph.and (left.1.1.flipIf p.1.1.negated)
              (right.1.1.flipIf p.1.2.negated)) right.2
            ((gate.1, right.1.2.insert v gate.1), gate.2) := by
  rw [rebuildNode]
  split
  · rfl
  change (match memo[v]? with
    | some l => (return l : Rebuild Lit)
    | none => _) memo e = _
  cases memo[v]? with
  | some l => rfl
  | none =>
    dsimp only [bind, StateT.bind, getThe, MonadStateOf.get, liftM, monadLift,
      MonadLift.monadLift, MonadLiftT.monadLift, StateT.lift, StateT.get, pure, StateT.pure]
    cases e.graph.operands? v <;> rfl

theorem Remembers.of_le {R : Encoding → Assignment → Assignment → Prop}
    {leaf : Nat → StateM Encoding Lit} (hleaf : Leaves leaf R) {e e' : Encoding}
    (wf : e.WellFormed) (wf' : e'.WellFormed) (hle : e ≤ e') {memo : Std.HashMap Nat Lit}
    (h : Remembers R e memo) : Remembers R e' memo := by
  intro v l hl
  obtain ⟨hv, hmem, heval⟩ := h v l hl
  refine ⟨Graph.mem_of_le (graph_le hle) hv, Graph.mem_of_le (graph_le hle) hmem, fun ρ σ hR => ?_⟩
  rw [Graph.eval_eq_of_le (graph_le hle) ρ hmem, Graph.value_eq_of_le (v := v) (graph_le hle) σ hv.2]
  exact heval ρ σ (hleaf.anti wf wf' hle hR)

theorem Rebuilds.remember {R : Encoding → Assignment → Assignment → Prop} {e e' : Encoding}
    {v : Nat} {l : Lit} (h : Rebuilds R e l e' (fun σ => e.graph.value σ v))
    (hv : Lit.pos v ∈ e.graph) {memo : Std.HashMap Nat Lit} (hmemo : Remembers R e' memo) :
    Remembers R e' (memo.insert v l) := by
  intro w m hm
  rw [Std.HashMap.getElem?_insert] at hm
  split at hm
  · rename_i hw
    obtain rfl : v = w := by simpa using hw
    cases hm
    refine ⟨Graph.mem_of_le (graph_le h.grows) hv, h.mem, fun ρ σ hR => ?_⟩
    rw [h.eval ρ σ hR, Graph.value_eq_of_le (v := v) (graph_le h.grows) σ hv.2]
  · exact hmemo w m hm

theorem Rebuilds.gate {R : Encoding → Assignment → Assignment → Prop}
    {leaf : Nat → StateM Encoding Lit} (hleaf : Leaves leaf R) {e e₁ e₂ : Encoding} {a b : Lit}
    {φ ψ : Assignment → Bool} (ha : Rebuilds R e a e₁ φ) (hb : Rebuilds R e₁ b e₂ ψ)
    (p q : Bool) :
    Rebuilds R e (onGraph (Graph.and (a.flipIf p) (b.flipIf q)) e₂).1
      (onGraph (Graph.and (a.flipIf p) (b.flipIf q)) e₂).2
      (fun σ => (p ^^ φ σ) && (q ^^ ψ σ)) ∧
    e₂ ≤ (onGraph (Graph.and (a.flipIf p) (b.flipIf q)) e₂).2 := by
  have hgate := Graph.and_computes (a := a.flipIf p) (b := b.flipIf q) hb.wf.graph
    (Graph.mem_of_le (graph_le hb.grows) ha.mem) hb.mem
  have wf := hb.wf.of_graph hgate.wf hgate.grows
  have hgrow := le_of_graph_le (e := e₂) hgate.grows
  refine ⟨⟨wf, le_trans ha.grows (le_trans hb.grows hgrow), hb.vars.trans ha.vars, hgate.mem,
    fun ρ σ hR => ?_⟩, hgrow⟩
  have hRb := hleaf.anti hb.wf wf hgrow hR
  have hRa := hleaf.anti ha.wf hb.wf hb.grows hRb
  rw [onGraph_eq, hgate.eval, Graph.eval_flipIf, Graph.eval_flipIf, hb.eval ρ σ hRb,
    Graph.eval_eq_of_le (graph_le hb.grows) ρ ha.mem, ha.eval ρ σ hRa]

theorem WellFormed.input_of_operands?_eq_none {e : Encoding} (wf : e.WellFormed) {v : Nat}
    (hv : Lit.pos v ∈ e.graph) (hone : v ≠ 1) (h : e.graph.operands? v = none) :
    e.graph.nodes[v]? = some .input := by
  cases hn : e.graph.nodes[v]? with
  | none =>
    have := hv.2
    simp only [Lit.var_pos, Graph.size] at this
    simp at hn
    omega
  | some node =>
    cases node with
    | input => rfl
    | constant =>
      have hlt := (wf.graph.constants v).1 hn
      have := hv.1
      simp only [Lit.var_pos] at this
      omega
    | gate a b =>
      obtain ⟨hlt, hops⟩ := wf.graph.operands?_eq_some hn
      rw [hops] at h
      cases h

theorem rebuildNode_rebuilds {R : Encoding → Assignment → Assignment → Prop}
    {leaf : Nat → StateM Encoding Lit} (hleaf : Leaves leaf R) (v : Nat) {e : Encoding}
    (wf : e.WellFormed) (hv : Lit.pos v ∈ e.graph) {memo : Std.HashMap Nat Lit}
    (hmemo : Remembers R e memo) :
    Rebuilds R e (rebuildNode leaf v memo e).1.1 (rebuildNode leaf v memo e).2
        (fun σ => e.graph.value σ v) ∧
      Remembers R (rebuildNode leaf v memo e).2 (rebuildNode leaf v memo e).1.2 := by
  induction v using Nat.strongRecOn generalizing e memo with
  | _ v ih =>
    rw [rebuildNode_eq]
    split
    · rename_i hone
      refine ⟨⟨wf, le_refl e, rfl, wf.graph.truth_mem, fun ρ σ _ => ?_⟩, hmemo⟩
      rw [Graph.eval_truth, hone, Graph.value_one]
    rename_i hone
    split
    · rename_i l hl
      obtain ⟨-, hmem, heval⟩ := hmemo v l hl
      exact ⟨⟨wf, le_refl e, rfl, hmem, heval⟩, hmemo⟩
    split
    · rename_i hops
      have hinput := wf.input_of_operands?_eq_none hv hone hops
      have wf' := hleaf.wf v wf
      have hle := hleaf.grows v wf
      have hnode : Rebuilds R e (leaf v e).1 (leaf v e).2 (fun σ => e.graph.value σ v) := by
        refine ⟨wf', hle, hleaf.vars v wf, hleaf.mem wf hinput, fun ρ σ hR => ?_⟩
        rw [hleaf.eval wf hinput ρ σ hR, wf.graph.value_input hinput]
      exact ⟨hnode, hnode.remember hv (hmemo.of_le hleaf wf wf' hle)⟩
    · rename_i p hops
      obtain ⟨⟨hapos, hav⟩, hbpos, hbv⟩ :=
        wf.graph.operands v _ _ (Graph.nodes_of_operands?_eq_some hops)
      have hamem : Lit.pos p.1.1.var ∈ e.graph := ⟨hapos, Nat.lt_trans hav hv.2⟩
      have hbmem : Lit.pos p.1.2.var ∈ e.graph := ⟨hbpos, Nat.lt_trans hbv hv.2⟩
      obtain ⟨hl, hlmemo⟩ := ih p.1.1.var hav wf hamem hmemo
      obtain ⟨hr, hrmemo⟩ :=
        ih p.1.2.var hbv hl.wf (Graph.mem_of_le (graph_le hl.grows) hbmem) hlmemo
      obtain ⟨hgate, hgrow⟩ := hl.gate hleaf hr p.1.1.negated p.1.2.negated
      have hnode := hgate.congr (ψ := fun σ => e.graph.value σ v) fun σ => by
        rw [Graph.value_of_operands?_eq_some hone hops,
          Graph.value_eq_of_le (v := p.1.2.var) (graph_le hl.grows) σ hbmem.2]
        rfl
      refine ⟨hnode, hnode.remember hv ?_⟩
      exact hrmemo.of_le hleaf hr.wf hgate.wf hgrow

theorem rebuild_eq (leaf : Nat → StateM Encoding Lit) (l : Lit) (e : Encoding) :
    rebuild leaf l e = ((rebuildNode leaf l.var {} e).1.1.flipIf l.negated,
      (rebuildNode leaf l.var {} e).2) := rfl

/-- Rebuilding substitutes at the leaves. -/
theorem rebuild_rebuilds {R : Encoding → Assignment → Assignment → Prop}
    {leaf : Nat → StateM Encoding Lit} (hleaf : Leaves leaf R) {l : Lit} {e : Encoding}
    (wf : e.WellFormed) (hl : l ∈ e.graph) :
    Rebuilds R e (rebuild leaf l e).1 (rebuild leaf l e).2 (fun σ => e.graph.eval σ l) := by
  have hempty : Remembers R e {} := by
    intro v m hm
    simp at hm
  obtain ⟨h, -⟩ := rebuildNode_rebuilds hleaf l.var wf hl hempty
  rw [rebuild_eq]
  refine ⟨h.wf, h.grows, h.vars, h.mem, fun ρ σ hR => ?_⟩
  rw [Graph.eval_flipIf, h.eval ρ σ hR]
  rfl

end Encoding

end Lasso
