import Lasso.Proofs.Machine.Commutation

/-! # Next forms from a memory

Next forms of nodes may be remembered for good, as long as none of a node is with something beneath
it that has no next form.  So the memory is given up whenever an expression turns out to have no
next form.  With such a memory or without one, the same variable is to blame then.
-/

namespace Lasso

set_option autoImplicit false

namespace Encoding

/-- What nodes have been shifted to so far, and the last variable that had no next form. -/
structure Shifting where
  nexts : Std.HashMap Nat Lit
  error : Option ShiftError

/-- The next form of a node, where that of a node met before is used again. -/
def shiftNode (v : Nat) (s : Shifting) (e : Encoding) : (Lit × Shifting) × Encoding :=
  if v = 1 then ((Graph.truth, s), e)
  else match s.nexts[v]? with
    | some l => ((l, s), e)
    | none =>
      match e.graph.operands? v with
      | none =>
        let leaf := leafNext v e
        ((leaf.1, ⟨s.nexts.insert v leaf.1, (e.shiftError? v).or s.error⟩), leaf.2)
      | some ⟨(a, b), _⟩ =>
        let left := shiftNode a.var s e
        let right := shiftNode b.var left.1.2 left.2
        let gate := onGraph (Graph.and (left.1.1.flipIf a.negated) (right.1.1.flipIf b.negated))
          right.2
        ((gate.1, ⟨right.1.2.nexts.insert v gate.1, right.1.2.error⟩), gate.2)
termination_by v
decreasing_by all_goals simp_all

/-- Apart from errors, shifting is rebuilding. -/
theorem rebuildNode_eq_shiftNode (v : Nat) (s : Shifting) (e : Encoding) :
    rebuildNode leafNext v s.nexts e =
      (((shiftNode v s e).1.1, (shiftNode v s e).1.2.nexts), (shiftNode v s e).2) := by
  induction v using Nat.strongRecOn generalizing s e with
  | _ v ih =>
    rw [rebuildNode_eq, shiftNode]
    split
    · rfl
    cases s.nexts[v]? with
    | some l => rfl
    | none =>
      cases e.graph.operands? v with
      | none => rfl
      | some p =>
        simp only [ih p.1.1.var p.2.1 s e, ih p.1.2.var p.2.2 (shiftNode p.1.1.var s e).1.2]

theorem shiftNode_reimages (v : Nat) {s : Shifting} {e : Encoding} (wf : e.WellFormed)
    (hv : Lit.pos v ∈ e.graph) (himages : Images leafNext e s.nexts) :
    Reimages leafNext v e
      (((shiftNode v s e).1.1, (shiftNode v s e).1.2.nexts), (shiftNode v s e).2) := by
  rw [← rebuildNode_eq_shiftNode]
  exact rebuildNode_reimages leafNext_settles v wf hv himages

section

variable {e : Encoding} (wf : e.WellFormed) {v : Nat}

include wf

theorem shiftError?_of_le {e' : Encoding} (hle : e ≤ e') (hv : v < e.graph.size) :
    e'.shiftError? v = e.shiftError? v := by
  rw [shiftError?, shiftError?, hle.origins v hv]
  cases ho : e.origins[v]? with
  | none => rfl
  | some o =>
    cases o with
    | timed i t => rfl
    | current i =>
      obtain ⟨x, hx, -⟩ := (wf.current i v).1 ho
      simp only [hx, hle.vars i x hx]
    | next i =>
      obtain ⟨x, hx, -⟩ := (wf.next i v).1 ho
      simp only [nameOfIndex, hx, hle.vars i x hx]

theorem Shiftable.of_le (h : e.Shiftable v) {e' : Encoding} (hle : e ≤ e') : e'.Shiftable v := by
  induction h with
  | constant => exact .constant
  | @leaf w hnode hnone =>
    have hlt := (Array.getElem?_eq_some_iff.1 hnode).1
    exact .leaf ((Graph.nodes_eq_of_le (graph_le hle) hlt).trans hnode)
      ((shiftError?_of_le wf hle hlt).trans hnone)
  | @gate w a b hnode _ _ iha ihb =>
    have hlt := (Array.getElem?_eq_some_iff.1 hnode).1
    exact .gate ((Graph.nodes_eq_of_le (graph_le hle) hlt).trans hnode) iha ihb

theorem shiftError?_eq_none (hnode : e.graph.nodes[v]? ≠ some .input) : e.shiftError? v = none := by
  cases ho : e.origins[v]? with
  | none => rw [shiftError?, ho]
  | some o => exact absurd (wf.origins v o ho) hnode

theorem Shiftable.shiftError?_eq_none (h : e.Shiftable v) : e.shiftError? v = none := by
  cases h with
  | constant => exact Encoding.shiftError?_eq_none wf fun h => wf.graph.ne_one_of_input h rfl
  | leaf _ hnone => exact hnone
  | gate hnode => exact Encoding.shiftError?_eq_none wf fun h => nomatch hnode.symm.trans h

theorem exists_shift_error_of_isInput {i : Nat} {x : Variable}
    (hx : e.vars[i]? = some x) (hinput : x.isInput = true) :
    ∃ err, (shift x.current e).1 = .error err := by
  have hpos := Lit.eq_pos_of_negated (wf.positive i x hx).1
  have ho := (wf.current i _).2 ⟨x, hx, hpos⟩
  apply exists_shift_error wf (hpos ▸ wf.pos_mem ho)
  intro hshiftable
  have hnone := hshiftable.shiftError?_eq_none wf
  simp [shiftError?, ho, hx, hinput] at hnone

end

/-- A memory and a walk have met the same nodes among those that have no next form. -/
structure Follows (e : Encoding) (s : Shifting) (r : Reached) : Prop where
  met : ∀ w, ¬ e.Shiftable w → (w ∈ s.nexts ↔ w ∈ r.order)
  error : s.error = (r.order.toList.filterMap e.shiftError?).getLast?

section

variable {e : Encoding} {s : Shifting} {r : Reached} (h : e.Follows s r) {v : Nat}

include h

theorem Follows.push (l : Lit) :
    e.Follows ⟨s.nexts.insert v l, (e.shiftError? v).or s.error⟩ (r.push v) where
  met w hw := by
    rw [Reached.mem_push_order, Std.HashMap.mem_insert, beq_iff_eq, h.met w hw, eq_comm, or_comm]
  error := by
    rw [h.error, Reached.push, Array.toList_push, List.filterMap_append, List.getLast?_append]
    cases hv : e.shiftError? v <;> simp [hv]

variable (wf : e.WellFormed) (hv : e.Shiftable v)

include hv

theorem Follows.insert (l : Lit) : e.Follows ⟨s.nexts.insert v l, s.error⟩ r where
  met w hw := by
    have hne : v ≠ w := by
      rintro rfl
      exact hw hv
    rw [Std.HashMap.mem_insert, beq_iff_eq, h.met w hw, or_iff_right hne]
  error := h.error

include wf

theorem Follows.push_shiftable : e.Follows s (r.push v) where
  met w hw := by
    have hne : w ≠ v := by
      rintro rfl
      exact hw hv
    rw [Reached.mem_push_order, h.met w hw, or_iff_left hne]
  error := by
    rw [h.error, Reached.push, Array.toList_push, List.filterMap_append]
    simp [hv.shiftError?_eq_none wf]

theorem Follows.visit_shiftable : e.Follows s (e.graph.visit v r) := by
  induction v using Nat.strongRecOn generalizing r with
  | _ v ih =>
    rw [Graph.visit]
    split
    · exact h
    split
    · exact h.push_shiftable wf hv
    · rename_i a b hlt hops
      obtain ⟨ha, hb⟩ := hv.operands wf.graph (Graph.nodes_of_operands?_eq_some hops)
      exact (ih b.var hlt.2 (ih a.var hlt.1 h ha) hb).push_shiftable wf hv

end

section

variable {e e₁ : Encoding} {s : Shifting} {r : Reached} (wf : e.WellFormed) (h : e.Follows s r)
  {v : Nat} (hv : Lit.pos v ∈ e.graph) (wf₁ : e₁.WellFormed) (hle : e ≤ e₁)
  (himages : Images leafNext e₁ s.nexts)

include wf h hv wf₁ hle himages

theorem Follows.shiftNode_shiftable (hshiftable : e.Shiftable v) :
    e.Follows (shiftNode v s e₁).1.2 r := by
  induction v using Nat.strongRecOn generalizing s e₁ with
  | _ v ih =>
    have hsize : v < e.graph.size := hv.2
    rw [shiftNode]
    split
    · exact h
    split
    · exact h
    split
    · dsimp only
      rw [shiftError?_of_le wf hle hsize, hshiftable.shiftError?_eq_none wf]
      exact h.insert hshiftable _
    · rename_i a b hlt hops
      rw [Graph.operands?_eq_of_le (graph_le hle) hsize] at hops
      obtain ⟨ha, hb⟩ := wf.operands_mem hv hops
      obtain ⟨hsa, hsb⟩ := hshiftable.operands wf.graph (Graph.nodes_of_operands?_eq_some hops)
      have hleft := shiftNode_reimages a.var wf₁ (Graph.mem_of_le (graph_le hle) ha) himages
      have hfollows := ih b.var hlt.2 (ih a.var hlt.1 h ha wf₁ hle himages hsa) hb hleft.wf
        (le_trans hle hleft.grows) hleft.images hsb
      exact hfollows.insert hshiftable _

/-- Whatever was remembered of nodes that have next forms, the walk and the memory meet the others
in the same order. -/
theorem Follows.shiftNode (hclosed : r.Closed e.graph) :
    e.Follows (shiftNode v s e₁).1.2 (e.graph.visit v r) := by
  induction v using Nat.strongRecOn generalizing s r e₁ with
  | _ v ih =>
    have hsize : v < e.graph.size := hv.2
    by_cases hshiftable : e.Shiftable v
    · exact (h.visit_shiftable wf hshiftable).shiftNode_shiftable wf hv wf₁ hle himages hshiftable
    have hone : v ≠ 1 := by
      rintro rfl
      exact hshiftable .constant
    rw [Encoding.shiftNode, Graph.visit, if_neg hone]
    by_cases hmet : v ∈ r.order
    · obtain ⟨l, hl⟩ := Option.isSome_iff_exists.1
        (Std.HashMap.mem_iff_isSome_getElem?.1 ((h.met v hshiftable).2 hmet))
      rw [hl, if_pos (.inr ((hclosed.seen v).2 hmet))]
      exact h
    -- neither has met the node: both go on beneath it and then add it
    have hnew : s.nexts[v]? = none :=
      Std.HashMap.getElem?_eq_none fun hmem => hmet ((h.met v hshiftable).1 hmem)
    rw [hnew, if_neg (not_or.2 ⟨hone, fun hseen => hmet ((hclosed.seen v).1 hseen)⟩),
      Graph.operands?_eq_of_le (graph_le hle) hsize]
    cases hops : e.graph.operands? v with
    | none =>
      dsimp only
      rw [shiftError?_of_le wf hle hsize]
      exact h.push _
    | some p =>
      obtain ⟨ha, hb⟩ := wf.operands_mem hv hops
      have hleft := shiftNode_reimages p.1.1.var wf₁ (Graph.mem_of_le (graph_le hle) ha) himages
      have hfollows := ih p.1.2.var p.2.2 (ih p.1.1.var p.2.1 h ha wf₁ hle himages hclosed) hb
        hleft.wf (le_trans hle hleft.grows) hleft.images (Graph.visit_closed _ _ hclosed).1
      have hnone : e.shiftError? v = none := by
        apply shiftError?_eq_none wf
        intro hinput
        cases (Graph.nodes_of_operands?_eq_some hops).symm.trans hinput
      have hpush := hfollows.push (v := v)
      rw [hnone] at hpush
      exact hpush _

end

section

variable {e : Encoding} (wf : e.WellFormed) {l : Lit} (hl : l ∈ e.graph)
  {nexts : Std.HashMap Nat Lit} (himages : Images leafNext e nexts)
  (hnexts : ∀ w ∈ nexts, e.Shiftable w)

include hnexts

theorem follows_empty : e.Follows ⟨nexts, none⟩ ∅ := by
  constructor
  · intro w hw
    have hempty : w ∉ (∅ : Reached).order := by
      simp [EmptyCollection.emptyCollection, Reached.empty]
    exact iff_of_false (fun hmem => hw (hnexts w hmem)) hempty
  · rfl

include wf hl himages

/-- The variable that is to blame is the last one in the support without a next form. -/
theorem error_shiftNode : (shiftNode l.var ⟨nexts, none⟩ e).1.2.error =
    ((e.graph.support l).filterMap fun m => e.shiftError? m.var).getLast? := by
  have hfollows := (follows_empty hnexts).shiftNode wf hl wf (le_refl e) himages
    (Reached.closed_empty _)
  have hgates : ∀ v, (if (e.graph.operands? v).isNone then e.shiftError? v else none) =
      e.shiftError? v := by
    intro v
    split
    · rfl
    · rename_i hsome
      refine (shiftError?_eq_none wf fun hinput => hsome ?_).symm
      rw [Graph.operands?_eq_none_of_input hinput]
      rfl
  rw [hfollows.error, Graph.support, List.filterMap_map, List.filterMap_filter]
  simp only [Function.comp_apply, Lit.var_pos, hgates]
  rfl

/-- Nothing beneath a node that has a next form is remembered unless it has one. -/
theorem shiftable_of_shiftNode (hshiftable : e.Shiftable l.var) :
    ∀ w ∈ (shiftNode l.var ⟨nexts, none⟩ e).1.2.nexts, e.Shiftable w := by
  have hfollows := (follows_empty hnexts).shiftNode_shiftable wf hl wf (le_refl e) himages
    hshiftable
  intro w hw
  by_contra hnot
  have hempty : w ∉ (∅ : Reached).order := by
    simp [EmptyCollection.emptyCollection, Reached.empty]
  exact hempty ((hfollows.met w hnot).1 hw)

end

end Encoding

end Lasso
