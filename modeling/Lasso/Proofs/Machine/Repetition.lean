import Lasso.Proofs.Graph.Repetition
import Lasso.Proofs.Machine.Path
import Lasso.Proofs.Machine.Rejection

/-! # Conditions and paths made again

The boolean variable of a variable at a time is allocated once, and gates are never added twice.  So
with the same variables of the machine every construction, made once more, returns what it returned
before and leaves the encoding alone.
-/

namespace Lasso

set_option autoImplicit false

namespace Encoding

/-- From `e`, a construction leads to a later encoding that has what it returns; made again in any
encoding after that with the same variables, it returns the same and adds nothing. -/
structure Reproduces {α : Type} (There : α → Graph → Prop) (c : StateM Encoding α)
    (e : Encoding) : Prop where
  wf : (c e).2.WellFormed
  grows : e ≤ (c e).2
  vars : (c e).2.vars = e.vars
  there : There (c e).1 (c e).2.graph
  again : ∀ e' : Encoding, e'.WellFormed → (c e).2 ≤ e' → e'.vars = e.vars → c e' = ((c e).1, e')

/-- A construction of an expression that can be made again. -/
abbrev Remakes (c : StateM Encoding Lit) (e : Encoding) : Prop :=
  Reproduces (fun l g => l ∈ g) c e

section

variable {α β : Type} {P : α → Graph → Prop} {Q : β → Graph → Prop} {e : Encoding}

theorem Reproduces.pure (wf : e.WellFormed) {a : α} (h : P a e.graph) :
    Reproduces P (Pure.pure a) e :=
  ⟨wf, le_refl e, rfl, h, fun _ _ _ _ => rfl⟩

theorem Reproduces.bind {c : StateM Encoding α} {k : α → StateM Encoding β}
    (hc : Reproduces P c e) (hk : Reproduces Q (k (c e).1) (c e).2) : Reproduces Q (c >>= k) e where
  wf := hk.wf
  grows := le_trans hc.grows hk.grows
  vars := hk.vars.trans hc.vars
  there := hk.there
  again e' wf' hle hvars := by
    rw [bind_apply, hc.again e' wf' (le_trans hk.grows hle) hvars]
    exact hk.again e' wf' hle (hvars.trans hc.vars.symm)

theorem Reproduces.of_eq {c c' : StateM Encoding α} (wf : e.WellFormed) (hc : Reproduces P c e)
    (h : ∀ e' : Encoding, e'.WellFormed → e ≤ e' → e'.vars = e.vars → c' e' = c e') :
    Reproduces P c' e := by
  have heq := h e wf (le_refl e) rfl
  refine ⟨heq ▸ hc.wf, heq ▸ hc.grows, heq ▸ hc.vars, heq ▸ hc.there, ?_⟩
  intro e' wf' hle hvars
  rw [heq] at hle ⊢
  rw [h e' wf' (le_trans hc.grows hle) hvars]
  exact hc.again e' wf' hle hvars

theorem Reproduces.mem {c : StateM Encoding α} (hc : Reproduces P c e) {l : Lit}
    (hl : l ∈ e.graph) : l ∈ (c e).2.graph :=
  Graph.mem_of_le (graph_le hc.grows) hl

end

section

variable {e : Encoding} (wf : e.WellFormed)

include wf

theorem onGraph_remakes {c : StateM Graph Lit} {φ : Assignment → Bool}
    (hc : e.graph.Builds (c e.graph) φ) (hagain : Graph.Repeats c e.graph) :
    Remakes (onGraph c) e where
  wf := wf.of_graph hc.wf hc.grows
  grows := le_of_graph_le hc.grows
  vars := rfl
  there := hc.mem
  again e' wf' hle _ := by
    rw [onGraph_eq, hagain e'.graph wf'.graph (graph_le hle)]
    rfl

theorem join_remakes {join : Lit → Lit → StateM Graph Lit} (hjoin : Graph.Repeatable join)
    {a b : Lit} (ha : a ∈ e.graph) (hb : b ∈ e.graph) : Remakes (onGraph (join a b)) e := by
  obtain ⟨op, hop⟩ := hjoin.computes
  exact onGraph_remakes wf (hop wf.graph ha hb) (hjoin.repeats wf.graph ha hb)

theorem and_remakes {a b : Lit} (ha : a ∈ e.graph) (hb : b ∈ e.graph) :
    Remakes (onGraph (Graph.and a b)) e :=
  join_remakes wf Graph.and_repeatable ha hb

theorem variableAt_remakes (i : Nat) (t : UInt64) : Remakes (variableAt i t) e := by
  have h := variableAt_builds wf i t
  refine ⟨h.wf, h.grows, h.vars, h.denotes.mem, fun e' wf' hle _ => ?_⟩
  rw [variableAt_eq, timeline_of_le h.wf wf' hle (timeline_variableAt i t)]

theorem leafAt_remakes (time : UInt64) {v : Nat} (hv : Lit.pos v ∈ e.graph) :
    Remakes (leafAt time v) e := by
  have horigin : ∀ e' : Encoding, e ≤ e' → e'.origins[v]? = e.origins[v]? := fun e' hle =>
    hle.origins v hv.2
  have hkept : Remakes (pure (.pos v)) e := .pure wf hv
  cases ho : e.origins[v]? with
  | none =>
    refine hkept.of_eq wf fun e' _ hle _ => ?_
    rw [leafAt_eq, horigin e' hle, ho]
    rfl
  | some o =>
    cases o with
    | current i =>
      refine (variableAt_remakes wf i time).of_eq wf fun e' _ hle _ => ?_
      rw [leafAt_eq, horigin e' hle, ho]
    | next i =>
      refine (variableAt_remakes wf i (time + 1)).of_eq wf fun e' _ hle _ => ?_
      rw [leafAt_eq, horigin e' hle, ho]
    | timed i t =>
      refine hkept.of_eq wf fun e' _ hle _ => ?_
      rw [leafAt_eq, horigin e' hle, ho]
      rfl

end

/-- The literals that nodes were rebuilt into. -/
def MemoIn (memo : Std.HashMap Nat Lit) (g : Graph) : Prop :=
  ∀ (v : Nat) (l : Lit), memo[v]? = some l → l ∈ g

theorem MemoIn.insert {memo : Std.HashMap Nat Lit} {g : Graph} (h : MemoIn memo g) {v : Nat}
    {l : Lit} (hl : l ∈ g) : MemoIn (memo.insert v l) g := by
  intro w m hm
  rw [Std.HashMap.getElem?_insert] at hm
  split at hm
  · cases hm
    exact hl
  · exact h w m hm

/-- Nodes are rebuilt in the same way again, with the same nodes remembered from before. -/
theorem rebuildNode_reproduces {leaf : Nat → StateM Encoding Lit}
    (hleaf : ∀ {e : Encoding} {v : Nat}, e.WellFormed → Lit.pos v ∈ e.graph → Remakes (leaf v) e)
    (v : Nat) {e : Encoding} (wf : e.WellFormed) (hv : Lit.pos v ∈ e.graph)
    {memo : Std.HashMap Nat Lit} (hmemo : MemoIn memo e.graph) :
    Reproduces (fun r g => r.1 ∈ g ∧ MemoIn r.2 g) (rebuildNode leaf v memo) e := by
  -- by the number of the node, as operands have smaller numbers; made again, a node is looked for in
  -- the same memory, so that the same branch is taken
  induction v using Nat.strongRecOn generalizing e memo with
  | _ v ih =>
    by_cases hone : v = 1
    · refine (Reproduces.pure wf (a := (Graph.truth, memo)) ⟨wf.graph.truth_mem, hmemo⟩).of_eq wf
        fun e' _ _ _ => ?_
      rw [rebuildNode_eq, if_pos hone]
      rfl
    cases hmem : memo[v]? with
    | some l =>
      refine (Reproduces.pure wf (a := (l, memo)) ⟨hmemo v l hmem, hmemo⟩).of_eq wf
        fun e' _ _ _ => ?_
      rw [rebuildNode_eq, if_neg hone, hmem]
      rfl
    | none =>
      have hops : ∀ e' : Encoding, e ≤ e' → e'.graph.operands? v = e.graph.operands? v :=
        fun e' hle => Graph.operands?_eq_of_le (graph_le hle) hv.2
      cases hop : e.graph.operands? v with
      | none =>
        have hl := hleaf wf hv
        have hmade : Reproduces (fun r g => r.1 ∈ g ∧ MemoIn r.2 g)
            (leaf v >>= fun l => pure (l, memo.insert v l)) e := by
          refine hl.bind (.pure hl.wf ⟨hl.there, MemoIn.insert ?_ hl.there⟩)
          exact fun w m hm => hl.mem (hmemo w m hm)
        refine hmade.of_eq wf fun e' _ hle _ => ?_
        rw [rebuildNode_eq, if_neg hone, hmem, hops e' hle, hop]
        rfl
      | some p =>
        obtain ⟨⟨hapos, hav⟩, hbpos, hbv⟩ :=
          wf.graph.operands v _ _ (Graph.nodes_of_operands?_eq_some hop)
        have hleft := ih p.1.1.var hav wf ⟨hapos, Nat.lt_trans hav hv.2⟩ hmemo
        have hbmem : Lit.pos p.1.2.var ∈ e.graph := ⟨hbpos, Nat.lt_trans hbv hv.2⟩
        have hright := ih p.1.2.var hbv hleft.wf (hleft.mem hbmem) hleft.there.2
        have hgate := and_remakes hright.wf
          (Graph.flipIf_mem_iff (c := p.1.1.negated).2 (hright.mem hleft.there.1))
          (Graph.flipIf_mem_iff (c := p.1.2.negated).2 hright.there.1)
        have hmade : Reproduces (fun r g => r.1 ∈ g ∧ MemoIn r.2 g) (do
            let left ← rebuildNode leaf p.1.1.var memo
            let right ← rebuildNode leaf p.1.2.var left.2
            let gate ← onGraph (Graph.and (left.1.flipIf p.1.1.negated)
              (right.1.flipIf p.1.2.negated))
            pure (gate, right.2.insert v gate)) e := by
          refine hleft.bind (hright.bind (hgate.bind (.pure hgate.wf ⟨hgate.there, ?_⟩)))
          exact MemoIn.insert (fun w m hm => hgate.mem (hright.there.2 w m hm)) hgate.there
        refine hmade.of_eq wf fun e' _ hle _ => ?_
        rw [rebuildNode_eq, if_neg hone, hmem, hops e' hle, hop]
        rfl

theorem instantiate_remakes {e : Encoding} (wf : e.WellFormed) {l : Lit} (hl : l ∈ e.graph)
    (time : UInt64) : Remakes (instantiate l time) e := by
  have hempty : MemoIn {} e.graph := by
    intro v m hm
    rw [Std.HashMap.getElem?_empty] at hm
    cases hm
  have hleaf : ∀ {e : Encoding} {v : Nat}, e.WellFormed → Lit.pos v ∈ e.graph →
      Remakes (leafAt time v) e := fun wf hv => leafAt_remakes wf time hv
  have hnode := rebuildNode_reproduces hleaf l.var wf hl hempty
  have hflipped : Remakes (pure ((rebuildNode (leafAt time) l.var {} e).1.1.flipIf l.negated))
      (rebuildNode (leafAt time) l.var {} e).2 :=
    .pure hnode.wf (Graph.flipIf_mem_iff.2 hnode.there.1)
  exact hnode.bind (k := fun r => pure (r.1.flipIf l.negated)) hflipped

theorem joinFrom_remakes {join : Lit → Lit → StateM Graph Lit} (hjoin : Graph.Repeatable join)
    {l : Lit} (count : Nat) {e : Encoding} (wf : e.WellFormed) (hl : l ∈ e.graph) (time : UInt64)
    {result : Lit} (hresult : result ∈ e.graph) : Remakes (joinFrom join l count time result) e := by
  induction count generalizing e time result with
  | zero => exact .pure wf hresult
  | succ count ih =>
    have hnow := instantiate_remakes wf hl time
    have hboth := join_remakes hnow.wf hjoin (hnow.mem hresult) hnow.there
    exact hnow.bind (hboth.bind (ih hboth.wf (hboth.mem (hnow.mem hl)) (time + 1) hboth.there))

theorem sometime_remakes {e : Encoding} (wf : e.WellFormed) {l : Lit} (hl : l ∈ e.graph)
    (first last : UInt64) : Remakes (sometime l first last) e :=
  joinFrom_remakes Graph.or_repeatable _ wf hl first wf.graph.falsity_mem

section

variable {α ε : Type}

/-- The expression is there, unless there is none. -/
def OkIn : Except ε Lit → Graph → Prop
  | .ok l, g => l ∈ g
  | .error _, _ => True

theorem connect_reproduces {e : Encoding} (wf : e.WellFormed) {ls : List Lit}
    (hls : ∀ l ∈ ls, l ∈ e.graph) (c : Connective) :
    Reproduces OkIn (connect c false ls).run e := by
  -- an operator either fails before it makes anything, or makes gates of arguments that are there
  have hwrong : ∀ reason : Malformed,
      Reproduces OkIn (throw reason : Attempt Malformed Lit).run e := fun reason =>
    Reproduces.pure (P := OkIn) wf (a := Except.error reason) trivial
  have hmade : ∀ {m : StateM Graph Lit}, Remakes (onGraph m) e →
      Reproduces OkIn (attempt m : Attempt Malformed Lit).run e := fun hm =>
    hm.bind (Q := OkIn) (k := fun l => pure (Except.ok l)) (.pure hm.wf hm.there)
  have hbinary : ∀ {join : Lit → Lit → StateM Graph Lit} {a b : Lit},
      Graph.Repeatable join → ls = [a, b] → Remakes (onGraph (join a b)) e := by
    rintro join a b hjoin rfl
    exact join_remakes wf hjoin (hls a (by simp)) (hls b (by simp))
  cases c with
  | not =>
    match ls with
    | [a] =>
      exact Reproduces.pure (P := OkIn) (a := Except.ok a.not) wf (hls a (by simp))
    | [] => exact hwrong _
    | _ :: _ :: _ => exact hwrong _
  | next =>
    match ls with
    | [a] => exact hwrong _
    | [] => exact hwrong _
    | _ :: _ :: _ => exact hwrong _
  | xor =>
    match ls with
    | [a, b] => exact hmade (hbinary Graph.xor_repeatable rfl)
    | [] => exact hwrong _
    | [_] => exact hwrong _
    | _ :: _ :: _ :: _ => exact hwrong _
  | implies =>
    match ls with
    | [a, b] => exact hmade (hbinary Graph.implies_repeatable rfl)
    | [] => exact hwrong _
    | [_] => exact hwrong _
    | _ :: _ :: _ :: _ => exact hwrong _
  | iff =>
    match ls with
    | [a, b] => exact hmade (hbinary Graph.iff_repeatable rfl)
    | [] => exact hwrong _
    | [_] => exact hwrong _
    | _ :: _ :: _ :: _ => exact hwrong _
  | ite =>
    match ls with
    | [c, a, b] =>
      have hc := hls c (by simp)
      have ha := hls a (by simp)
      have hb := hls b (by simp)
      exact hmade (onGraph_remakes wf (Graph.ite_builds wf.graph hc ha hb)
        (Graph.ite_repeats wf.graph ha hb hc))
    | [] => exact hwrong _
    | [_] => exact hwrong _
    | [_, _] => exact hwrong _
    | _ :: _ :: _ :: _ :: _ => exact hwrong _
  | and =>
    match ls with
    | [] => exact hwrong _
    | a :: as =>
      exact hmade (onGraph_remakes wf (Graph.all_builds (a :: as) wf.graph hls)
        (Graph.foldlM_repeats Graph.and_repeatable _ wf.graph hls
          wf.graph.truth_mem))
  | or =>
    match ls with
    | [] => exact hwrong _
    | a :: as =>
      exact hmade (onGraph_remakes wf (Graph.any_builds (a :: as) wf.graph hls)
        (Graph.foldlM_repeats Graph.or_repeatable _ wf.graph hls
          wf.graph.falsity_mem))

mutual

theorem condition_again {e e' : Encoding} (wf : e.WellFormed) (wf' : e'.WellFormed)
    (hvars : e'.vars = e.vars) : (x : SExpr α) → ((condition false x).run e).2 ≤ e' →
    (condition false x).run e' = (((condition false x).run e).1, e')
  | .symbol note name => fun _ => by
    rw [condition_symbol_eq, condition_symbol_eq, conditionName?_congr hvars]
  | .list note (.symbol note' name :: args) => fun hle => by
    obtain ⟨hwf, hgrows, hsame, hargs⟩ := conditions_attempts wf false args
    have hagain := conditions_again wf wf' hvars args
    rw [condition_list_eq] at hle ⊢
    rw [condition_list_eq]
    generalize (conditions false args).run e = r at hwf hgrows hsame hargs hagain hle ⊢
    obtain ⟨r, e₁⟩ := r
    cases r with
    | error err =>
      rw [hagain hle]
    | ok ls =>
      cases hname : Connective.ofName? name with
      | none =>
        rw [hname] at hle
        rw [hagain hle]
      | some c =>
        have hconnect := connect_reproduces hwf (hargs ls rfl).1.mem c
        rw [hname] at hle
        rw [hagain (le_trans hconnect.grows hle)]
        dsimp only at hconnect hle hsame ⊢
        rw [hconnect.again e' wf' hle (hvars.trans hsame.symm)]
  | .list _ [] => fun _ => by rw [condition_nil_eq, condition_nil_eq]
  | .list _ (.list _ _ :: _) => fun _ => by rw [condition_nested_eq, condition_nested_eq]

theorem conditions_again {e e' : Encoding} (wf : e.WellFormed) (wf' : e'.WellFormed)
    (hvars : e'.vars = e.vars) : (xs : List (SExpr α)) → ((conditions false xs).run e).2 ≤ e' →
    (conditions false xs).run e' = (((conditions false xs).run e).1, e')
  | [] => fun _ => by
    rw [conditions]
    rfl
  | x :: xs => fun hle => by
    have hx := (condition_attempts wf false x).1
    have hagain := condition_again wf wf' hvars x
    rw [conditions_cons_eq] at hle ⊢
    rw [conditions_cons_eq]
    generalize (condition false x).run e = r at hx hagain hle ⊢
    obtain ⟨r, e₁⟩ := r
    cases r with
    | error err =>
      rw [hagain hle]
    | ok l =>
      obtain ⟨-, hgrows, -⟩ := conditions_attempts hx.wf false xs
      rw [hagain (le_trans hgrows hle)]
      dsimp only
      rw [conditions_again hx.wf wf' (hvars.trans hx.vars.symm) xs hle]

end

theorem condition_reproduces {e : Encoding} (wf : e.WellFormed) (x : SExpr α) :
    Reproduces OkIn (condition false x).run e := by
  have hx := (condition_attempts wf false x).1
  refine ⟨hx.wf, hx.grows, hx.vars, ?_, fun e' wf' hle hvars =>
    condition_again wf wf' hvars x hle⟩
  cases hr : ((condition false x).run e).1 with
  | ok l => exact (hx.denotes l hr).mem
  | error err => trivial

end

end Encoding

namespace Machine

open Encoding

theorem unrollFrom_remakes {m : Machine} (count : Nat) {e : Encoding} (wf : e.WellFormed)
    (hm : m.Over e) (time : UInt64) {result : Lit} (hresult : result ∈ e.graph) :
    Remakes (m.unrollFrom count time result) e := by
  induction count generalizing e time result with
  | zero => exact .pure wf hresult
  | succ count ih =>
    have htrans := instantiate_remakes wf hm.trans.mem time
    have hinvar := instantiate_remakes htrans.wf (htrans.mem hm.invar.mem) (time + 1)
    have hstep := and_remakes hinvar.wf (hinvar.mem htrans.there) hinvar.there
    have hboth := and_remakes hstep.wf (hstep.mem (hinvar.mem (htrans.mem hresult))) hstep.there
    have hle := le_trans (le_trans htrans.grows hinvar.grows) (le_trans hstep.grows hboth.grows)
    exact htrans.bind (hinvar.bind (hstep.bind (hboth.bind
      (ih hboth.wf (hm.of_le wf hle) (time + 1) hboth.there))))

theorem unroll_remakes {m : Machine} {e : Encoding} (wf : e.WellFormed) (hm : m.Over e)
    (first last : UInt64) : Remakes (m.unroll first last) e := by
  have hinvar := instantiate_remakes wf hm.invar.mem first
  exact hinvar.bind (unrollFrom_remakes _ hinvar.wf (hm.of_le wf hinvar.grows) first hinvar.there)

theorem path_remakes {m : Machine} {e : Encoding} (wf : e.WellFormed) (hm : m.Over e)
    (length : UInt64) : Remakes (m.path length) e := by
  have hinit := instantiate_remakes wf hm.init.mem 0
  have hsteps := unroll_remakes hinit.wf (hm.of_le wf hinit.grows) 0 length
  exact hinit.bind (hsteps.bind (and_remakes hsteps.wf (hsteps.mem hinit.there) hsteps.there))

end Machine

end Lasso
