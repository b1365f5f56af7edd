import Lasso.Proofs.Machine.Likeness

/-! # Next forms and instances commute

The next form of an expression, moved to a time, is the expression moved to the time after it.  They
are the same expression and not only equivalent ones, since rebuilding a conjunction in two steps
leads to the gates that rebuilding it in one step leads to.
-/

namespace Lasso

set_option autoImplicit false

theorem Lit.flipIf_false (l : Lit) : l.flipIf false = l := by
  simp [Lit.flipIf]

theorem Lit.flipIf_flipIf (l : Lit) (m n : Bool) : (l.flipIf m).flipIf n = l.flipIf (n ^^ m) := by
  simp [Lit.flipIf]

namespace Encoding

/-- The literal that an expression is rebuilt into when nothing has to be added for it. -/
def ImageOf (leaf : Nat → StateM Encoding Lit) (e : Encoding) (l m : Lit) : Prop :=
  ∃ n, Image leaf e l.var n ∧ m = n.flipIf l.negated

section

variable {leaf : Nat → StateM Encoding Lit} {e : Encoding} {a b l m x y z : Lit}

theorem imageOf_constant {l : Lit} (hone : l.var = 1) : ImageOf leaf e l l := by
  obtain ⟨v, n⟩ := l
  obtain rfl : v = 1 := hone
  exact ⟨Graph.truth, .one, by simp [Lit.flipIf, Graph.truth]⟩

theorem ImageOf.flipIf (h : ImageOf leaf e l m) (n : Bool) :
    ImageOf leaf e (l.flipIf n) (m.flipIf n) := by
  obtain ⟨k, hk, rfl⟩ := h
  exact ⟨k, hk, Lit.flipIf_flipIf k _ n⟩

theorem ImageOf.unique (hx : ImageOf leaf e l x) (hy : ImageOf leaf e l y) : x = y := by
  obtain ⟨k, hk, rfl⟩ := hx
  obtain ⟨k', hk', rfl⟩ := hy
  rw [hk.unique hk']

variable (hleaf : Settles leaf) (wf : e.WellFormed)

include hleaf wf

theorem ImageOf.mem (hl : l ∈ e.graph) (h : ImageOf leaf e l m) : m ∈ e.graph := by
  obtain ⟨k, hk, rfl⟩ := h
  exact Graph.flipIf_mem_iff.2 (hk.mem hleaf wf hl)

omit hleaf wf in
theorem ImageOf.and_constant (hone : a.var = 1) (hb : b ∈ e.graph) (hymem : y ∈ e.graph)
    (hm : Graph.and a b e.graph = (m, e.graph)) (hx : ImageOf leaf e a x)
    (hy : ImageOf leaf e b y) (hz : Graph.and x y e.graph = (z, e.graph)) :
    ImageOf leaf e m z := by
  obtain rfl := hx.unique (imageOf_constant hone)
  rcases Lit.eq_constant hone with rfl | rfl
  · rw [Graph.truth_and hb] at hm
    rw [Graph.truth_and hymem] at hz
    cases hm
    cases hz
    exact hy
  · rw [Graph.falsity_and hb] at hm
    rw [Graph.falsity_and hymem] at hz
    cases hm
    cases hz
    exact imageOf_constant rfl

theorem rebuild_imageOf (hl : l ∈ e.graph) {e' : Encoding} (wf' : e'.WellFormed)
    (hle : (rebuild leaf l e).2 ≤ e') : ImageOf leaf e' l (rebuild leaf l e).1 := by
  have hmade := rebuildNode_reimages hleaf l.var wf hl (images_empty leaf e)
  have hl' := Graph.mem_of_le (graph_le hmade.grows) hl
  exact ⟨_, hmade.image.of_le hleaf hmade.wf wf' hle hl', rfl⟩

theorem ImageOf.and (ha : a ∈ e.graph) (hb : b ∈ e.graph)
    (hm : Graph.and a b e.graph = (m, e.graph)) (hx : ImageOf leaf e a x)
    (hy : ImageOf leaf e b y) (hz : Graph.and x y e.graph = (z, e.graph)) :
    ImageOf leaf e m z := by
  by_cases hab : a = b
  · obtain rfl := hab
    obtain rfl := hx.unique hy
    rw [Graph.and_self] at hm hz
    cases hm
    cases hz
    exact hx
  by_cases hnot : a = b.not
  · have hynot : ImageOf leaf e b.not y.not := by
      rw [← Lit.flipIf_true, ← Lit.flipIf_true]
      exact hy.flipIf true
    obtain rfl := hx.unique (hnot ▸ hynot)
    rw [hnot, Graph.and_not_self] at hm
    rw [Graph.and_not_self] at hz
    cases hm
    cases hz
    exact imageOf_constant rfl
  by_cases hone : a.var = 1
  · exact .and_constant hone hb (hy.mem hleaf wf hb) hm hx hy hz
  by_cases hone' : b.var = 1
  · rw [Graph.and_comm] at hm hz
    exact .and_constant hone' ha (hx.mem hleaf wf ha) hm hy hx hz
  -- what is left is a gate, whose operands may have been turned around
  have hvars : a.var ≠ b.var := fun heq => (Lit.eq_or_eq_not heq).elim hab hnot
  obtain ⟨v, c, d, hv, hnode, hcd⟩ := Graph.nodes_and wf.graph hone hone' hvars
  rw [hm] at hv hnode
  obtain rfl : m = .pos v := hv
  obtain ⟨_, hops⟩ := wf.graph.operands?_eq_some hnode
  obtain ⟨k, hk, rfl⟩ := hx
  obtain ⟨k', hk', rfl⟩ := hy
  have hmade : ∀ {p q : Lit}, Graph.and p q e.graph = (z, e.graph) →
      onGraph (Graph.and p q) e = (z, e) := fun h => by rw [onGraph_eq, h]
  refine ⟨z, ?_, (Lit.flipIf_false z).symm⟩
  rcases hcd with ⟨rfl, rfl⟩ | ⟨rfl, rfl⟩
  · exact .gate (wf.graph.ne_one_of_gate hnode) hops hk hk' (hmade hz)
  · rw [Graph.and_comm] at hz
    exact .gate (wf.graph.ne_one_of_gate hnode) hops hk' hk (hmade hz)

end

section

variable {e : Encoding} (wf : e.WellFormed) {v : Nat}

include wf

/-- What can be shifted is either a state variable or none of the machine's variables. -/
theorem leaf_cases (hnone : e.shiftError? v = none) :
    (∃ i w, e.origins[v]? = some (.current i) ∧ e.nextForm v = .pos w ∧
      e.origins[w]? = some (.next i)) ∨
    (e.nextForm v = .pos v ∧ ∀ time, leafAt time v e = (.pos v, e)) := by
  cases ho : e.origins[v]? with
  | none => exact .inr ⟨by simp [nextForm, ho], fun time => by rw [leafAt_eq, ho]⟩
  | some o =>
    cases o with
    | next i => simp [shiftError?, ho] at hnone
    | timed i t => exact .inr ⟨by simp [nextForm, ho], fun time => by rw [leafAt_eq, ho]⟩
    | current i =>
      obtain ⟨x, hx, -⟩ := (wf.current i v).1 ho
      obtain ⟨name, index, current, role⟩ := x
      cases role with
      | input => simp [shiftError?, ho, hx, Variable.isInput] at hnone
      | state next =>
        have hpos := Lit.eq_pos_of_negated ((wf.positive i _ hx).2 next rfl)
        refine .inl ⟨i, next.var, rfl, ?_, (wf.next i next.var).2 ⟨_, hx, congrArg Role.state hpos⟩⟩
        rw [← hpos]
        simp [nextForm, ho, hx]

/-- The instance of a next form is the instance one step later. -/
theorem Image.instance_of_next {m y : Lit} {time : UInt64} (hm : Image leafNext e v m)
    (hv : Lit.pos v ∈ e.graph) (hshiftable : e.Shiftable v)
    (hy : Image (leafAt (time + 1)) e v y) : ImageOf (leafAt time) e m y := by
  -- by how the next form was made; the image at the later time is taken apart in the same way
  induction hm generalizing y with
  | one =>
    rw [hy.of_one]
    exact imageOf_constant rfl
  | @free v m hone hops hmade =>
    have hinput := wf.input_of_operands?_eq_none hv hone hops
    have hnone : e.shiftError? v = none := by
      cases hshiftable with
      | constant => exact absurd rfl hone
      | leaf _ hnone => exact hnone
      | gate hnode => cases hinput.symm.trans hnode
    have hmade' := hy.of_input wf hinput
    rw [leafNext_eq, Prod.mk.injEq] at hmade
    obtain ⟨rfl, -⟩ := hmade
    rcases leaf_cases wf hnone with ⟨i, w, ho, hform, hw⟩ | ⟨hform, hkept⟩
    · rw [hform]
      have hwinput := wf.origins w _ hw
      rw [leafAt_eq, ho] at hmade'
      refine ⟨y, .free (wf.graph.ne_one_of_input hwinput)
        (Graph.operands?_eq_none_of_input hwinput) ?_, (Lit.flipIf_false y).symm⟩
      rw [leafAt_eq, Lit.var_pos, hw]
      exact hmade'
    · rw [hform]
      rw [hkept, Prod.mk.injEq] at hmade'
      obtain ⟨rfl, -⟩ := hmade'
      exact ⟨_, .free hone hops (hkept time), (Lit.flipIf_false _).symm⟩
  | @gate v a b m p hone hops ha hb hmade iha ihb =>
    have hnode := Graph.nodes_of_operands?_eq_some hops
    obtain ⟨hva, hvb⟩ := wf.operands_mem hv hops
    obtain ⟨hsa, hsb⟩ := hshiftable.operands wf.graph hnode
    obtain ⟨x, x', hx, hx', hz⟩ := hy.of_gate wf hnode
    rw [onGraph_eq, Prod.mk.injEq] at hmade
    refine ImageOf.and (leafAt_settles time) wf ?_ ?_
      (Prod.ext hmade.1 (congrArg Encoding.graph hmade.2)) ((iha hva hsa hx).flipIf p.1.1.negated)
      ((ihb hvb hsb hx').flipIf p.1.2.negated) hz
    · exact Graph.flipIf_mem_iff.2 (ha.mem leafNext_settles wf hva)
    · exact Graph.flipIf_mem_iff.2 (hb.mem leafNext_settles wf hvb)

theorem ImageOf.instance_of_next {l m x y : Lit} {time : UInt64} (hl : l ∈ e.graph)
    (hshiftable : e.Shiftable l.var) (hm : ImageOf leafNext e l m)
    (hx : ImageOf (leafAt time) e m x) (hy : ImageOf (leafAt (time + 1)) e l y) : x = y := by
  obtain ⟨k, hk, rfl⟩ := hm
  obtain ⟨k', hk', rfl⟩ := hy
  exact hx.unique ((hk.instance_of_next wf hl hshiftable hk').flipIf l.negated)

end

end Encoding

end Lasso
