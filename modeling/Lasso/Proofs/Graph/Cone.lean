import Mathlib.Data.List.Nodup
import Lasso.Proofs.Graph.Dimacs
import Lasso.Proofs.Graph.Repetition

/-! # What expressions are built over

A connective puts gates on top of its arguments and adds no free variables.  So what an expression
is built over is what its arguments are built over, and the support of an expression, in which no
free variable comes twice, lies within it.
-/

namespace Lasso

set_option autoImplicit false

namespace Graph

/-- A node is built over some free variables: it is the constant, one of them, or a gate of nodes
that are built over them. -/
inductive Over (g : Graph) (P : Nat → Prop) : Nat → Prop where
  | constant : Over g P 1
  | leaf {v : Nat} (hnode : g.nodes[v]? = some .input) (hv : P v) : Over g P v
  | gate {v : Nat} {a b : Lit} (hnode : g.nodes[v]? = some (.gate a b)) (ha : Over g P a.var)
    (hb : Over g P b.var) : Over g P v

section

variable {g g' : Graph} {P Q : Nat → Prop} {v : Nat}

theorem Over.mono (h : g.Over P v) (hle : g ≤ g') (hPQ : ∀ w, P w → Q w) : g'.Over Q v := by
  have hnodes : ∀ {w : Nat} {n : Node}, g.nodes[w]? = some n → g'.nodes[w]? = some n := by
    intro w n hn
    exact (nodes_eq_of_le hle (Array.getElem?_eq_some_iff.1 hn).1).trans hn
  induction h with
  | constant => exact .constant
  | leaf hnode hv => exact .leaf (hnodes hnode) (hPQ _ hv)
  | gate hnode _ _ iha ihb => exact .gate (hnodes hnode) iha ihb

theorem Over.of_le (h : g.Over P v) (hle : g ≤ g') : g'.Over P v := h.mono hle fun _ hw => hw

variable (wf : g.WellFormed)

include wf

theorem Over.mem {l : Lit} (h : g.Over P l.var) : l ∈ g := by
  generalize hl : l.var = v at h
  have hpos : 0 < v ∧ v < g.size := by
    cases h with
    | constant => exact wf.truth_mem
    | leaf hnode _ => exact wf.pos_mem_of_input hnode
    | gate hnode _ _ =>
      have ha := (wf.operands _ _ _ hnode).1
      exact ⟨by omega, (Array.getElem?_eq_some_iff.1 hnode).1⟩
  rw [← hl] at hpos
  exact hpos

/-- A gate is built over what its operands are built over. -/
theorem Over.operands {a b : Lit} (h : g.Over P v) (hnode : g.nodes[v]? = some (.gate a b)) :
    g.Over P a.var ∧ g.Over P b.var := by
  cases h with
  | constant => exact absurd rfl (wf.ne_one_of_gate hnode)
  | leaf hinput _ => exact absurd (hinput.symm.trans hnode) (by simp)
  | gate hgate ha hb =>
    cases hgate.symm.trans hnode
    exact ⟨ha, hb⟩

theorem Over.beneath {l : Lit} (h : g.Over P l.var) (hv : g.Beneath [l] v) : g.Over P v := by
  induction hv with
  | root hl => exact List.mem_singleton.1 hl ▸ h
  | left _ hnode ih => exact (ih.operands wf hnode).1
  | right _ hnode ih => exact (ih.operands wf hnode).2

theorem Over.of_mem_support {l m : Lit} (h : g.Over P l.var) (hm : m ∈ g.support l) :
    P m.var := by
  obtain ⟨-, hreach, hops⟩ := mem_support_iff.1 hm
  obtain ⟨hone, hbeneath⟩ := (mem_reach_iff wf).1 hreach
  generalize m.var = v at hops hone hbeneath
  cases h.beneath wf hbeneath with
  | constant => exact absurd rfl hone
  | leaf _ hv => exact hv
  | gate hnode _ _ =>
    obtain ⟨_, hsome⟩ := wf.operands?_eq_some hnode
    exact absurd (hops.symm.trans hsome) (by simp)

theorem over_of_support {l : Lit} (hl : l ∈ g) (h : ∀ m ∈ g.support l, P m.var) :
    g.Over P l.var := by
  have hbeneath : ∀ v, g.Beneath [l] v → g.Over P v := by
    intro v
    induction v using Nat.strongRecOn with
    | _ v ih =>
      intro hv
      obtain ⟨hpos, hlt⟩ := hv.mem wf fun m hm => by rwa [List.mem_singleton.1 hm]
      cases hnode : g.nodes[v]? with
      | none => exact absurd (Array.getElem?_eq_none_iff.1 hnode) (Nat.not_le.2 hlt)
      | some node =>
        cases node with
        | constant =>
          have hone : v = 1 := by
            have := (wf.constants v).1 hnode
            omega
          exact hone ▸ .constant
        | input =>
          refine .leaf hnode (h (.pos v) (mem_support_iff.2 ⟨rfl, ?_, ?_⟩))
          · exact (mem_reach_iff wf).2 ⟨wf.ne_one_of_input hnode, hv⟩
          · exact operands?_eq_none_of_input hnode
        | gate a b =>
          obtain ⟨⟨-, ha⟩, -, hb⟩ := wf.operands v a b hnode
          exact .gate hnode (ih a.var ha (hv.left hnode)) (ih b.var hb (hv.right hnode))
  exact hbeneath l.var (.root List.mem_cons_self)

end

section

variable {g : Graph} {P : Nat → Prop} (wf : g.WellFormed) {a b c d : Lit}

include wf

theorem gate_over (ha : g.Over P a.var) (hb : g.Over P b.var) :
    (gate a b g).2.Over P (gate a b g).1.var := by
  have hle := (gate_builds wf (ha.mem wf) (hb.mem wf)).grows
  exact .gate (nodes_gate wf a b) (ha.of_le hle) (hb.of_le hle)

theorem and_over (ha : g.Over P a.var) (hb : g.Over P b.var) :
    (and a b g).2.Over P (and a b g).1.var := by
  unfold and
  split
  · exact ha
  split
  · exact .constant
  have hsorted : g.Over P (if a.code < b.code then (a, b) else (b, a)).1.var ∧
      g.Over P (if a.code < b.code then (a, b) else (b, a)).2.var := by
    split
    · exact ⟨ha, hb⟩
    · exact ⟨hb, ha⟩
  generalize (if a.code < b.code then (a, b) else (b, a)) = p at hsorted
  obtain ⟨hfirst, hsecond⟩ := hsorted
  dsimp only
  split
  · exact .constant
  split
  · exact hsecond
  · exact gate_over wf hfirst hsecond

theorem or_over (ha : g.Over P a.var) (hb : g.Over P b.var) :
    (or a b g).2.Over P (or a b g).1.var :=
  and_over (a := a.not) (b := b.not) wf ha hb

theorem or_and_over (ha : g.Over P a.var) (hb : g.Over P b.var) (hc : g.Over P c.var)
    (hd : g.Over P d.var) :
    ((do let left ← and a b; let right ← and c d; or left right : StateM Graph Lit) g).2.Over P
      ((do let left ← and a b; let right ← and c d; or left right : StateM Graph Lit) g).1.var := by
  have hleft := and_computes wf (ha.mem wf) (hb.mem wf)
  have hc₁ := hc.of_le hleft.grows
  have hd₁ := hd.of_le hleft.grows
  have hright := and_computes hleft.wf (hc₁.mem hleft.wf) (hd₁.mem hleft.wf)
  exact or_over hright.wf ((and_over wf ha hb).of_le hright.grows) (and_over hleft.wf hc₁ hd₁)

end

/-- A connective that is built over what its arguments are built over. -/
structure Mixes (join : Lit → Lit → StateM Graph Lit) : Prop extends Repeatable join where
  stays : ∀ {g : Graph} {P : Nat → Prop} {a b : Lit}, g.WellFormed → g.Over P a.var →
    g.Over P b.var → (join a b g).2.Over P (join a b g).1.var

theorem and_mixes : Mixes and := ⟨and_repeatable, fun wf ha hb => and_over wf ha hb⟩

theorem or_mixes : Mixes or := ⟨or_repeatable, fun wf ha hb => or_over wf ha hb⟩

theorem implies_mixes : Mixes implies :=
  ⟨implies_repeatable, fun wf ha hb => or_over (a := Lit.not _) wf ha hb⟩

theorem xor_mixes : Mixes xor :=
  ⟨xor_repeatable, fun wf ha hb =>
    or_and_over (b := Lit.not _) (c := Lit.not _) wf ha hb ha hb⟩

theorem iff_mixes : Mixes iff := ⟨iff_repeatable, xor_mixes.stays⟩

theorem ite_over {g : Graph} {P : Nat → Prop} (wf : g.WellFormed) {a b c : Lit}
    (hc : g.Over P c.var) (ha : g.Over P a.var) (hb : g.Over P b.var) :
    (ite c a b g).2.Over P (ite c a b g).1.var :=
  or_and_over (c := c.not) wf hc ha hc hb

theorem foldlM_over {join : Lit → Lit → StateM Graph Lit} (hjoin : Mixes join) (ls : List Lit)
    {g : Graph} (wf : g.WellFormed) {P : Nat → Prop} {first : Lit} (hfirst : g.Over P first.var)
    (hls : ∀ l ∈ ls, g.Over P l.var) :
    (ls.foldlM join first g).2.Over P (ls.foldlM join first g).1.var := by
  induction ls generalizing g first with
  | nil => exact hfirst
  | cons l ls ih =>
    have hl := hls l List.mem_cons_self
    obtain ⟨_, hop⟩ := hjoin.computes
    have hstep := hop wf (hfirst.mem wf) (hl.mem wf)
    refine ih hstep.wf (hjoin.stays wf hfirst hl) fun m hm => ?_
    exact (hls m (List.mem_cons_of_mem l hm)).of_le hstep.grows

/-- Every construction but that of a free variable. -/
theorem Operation.run_over (o : Operation) (ho : o ≠ .input) {g : Graph} (wf : g.WellFormed)
    {P : Nat → Prop} (hargs : ∀ l ∈ o.arguments, g.Over P l.var) :
    (o.run g).2.Over P (o.run g).1.var := by
  cases o with
  | input => exact absurd rfl ho
  | and a b => exact and_over wf (forall_pair hargs).1 (forall_pair hargs).2
  | or a b => exact or_over wf (forall_pair hargs).1 (forall_pair hargs).2
  | implies a b => exact implies_mixes.stays wf (forall_pair hargs).1 (forall_pair hargs).2
  | xor a b => exact xor_mixes.stays wf (forall_pair hargs).1 (forall_pair hargs).2
  | iff a b => exact iff_mixes.stays wf (forall_pair hargs).1 (forall_pair hargs).2
  | ite c a b =>
    obtain ⟨hc, ha, hb⟩ := forall_triple hargs
    exact ite_over wf hc ha hb
  | all ls => exact foldlM_over and_mixes ls wf .constant hargs
  | any ls => exact foldlM_over or_mixes ls wf .constant hargs

theorem Reached.push_nodup {r : Reached} (h : r.order.toList.Nodup) {v : Nat} (hv : v ∉ r.order) :
    (r.push v).order.toList.Nodup := by
  rw [Reached.push, Array.toList_push, List.nodup_append]
  refine ⟨h, List.nodup_singleton v, ?_⟩
  rintro w hw _ hv' rfl
  exact hv (List.mem_singleton.1 hv' ▸ Array.mem_toList_iff.1 hw)

theorem visit_nodup (g : Graph) (v : Nat) {r : Reached} (hr : r.Closed g)
    (h : r.order.toList.Nodup) : (g.visit v r).order.toList.Nodup := by
  induction v using Nat.strongRecOn generalizing r with
  | _ v ih =>
    rw [visit]
    split
    · exact h
    rename_i hnew
    have hv : v ∉ r.order := fun hmem => (not_or.1 hnew).2 ((hr.seen v).2 hmem)
    split
    · exact Reached.push_nodup h hv
    · rename_i a b hlt _
      have hfirst := ih a.var hlt.1 hr h
      have hsecond := ih b.var hlt.2 (visit_closed g a.var hr).1 hfirst
      refine Reached.push_nodup hsecond fun hmem => ?_
      -- only smaller numbers were reached since
      rcases le_of_mem_visit g b.var hmem with hmem | hle
      · rcases le_of_mem_visit g a.var hmem with hmem | hle
        · exact hv hmem
        · exact Nat.not_lt.2 hle hlt.1
      · exact Nat.not_lt.2 hle hlt.2

theorem reach_nodup (g : Graph) (roots : List Lit) : (g.reach roots).Nodup := by
  have hfold : ∀ (ls : List Lit) {r : Reached}, r.Closed g → r.order.toList.Nodup →
      (ls.foldl (fun r l => g.visit l.var r) r).order.toList.Nodup := by
    intro ls
    induction ls with
    | nil => exact fun _ h => h
    | cons l ls ih =>
      intro r hr h
      exact ih (visit_closed g l.var hr).1 (visit_nodup g l.var hr h)
  apply hfold roots (Reached.closed_empty g)
  simp [EmptyCollection.emptyCollection, Reached.empty]

theorem support_nodup (g : Graph) (l : Lit) : (g.support l).Nodup := by
  have hinj : Function.Injective Lit.pos := fun v w h => Lit.pos_inj.1 h
  exact ((reach_nodup g [l]).filter _).map hinj

end Graph

end Lasso
