import Lasso.Proofs.Graph.Support
import Lasso.Proofs.Machine.Rebuild

/-! # Next forms of expressions

An expression over current forms of the state becomes one over next forms.  It then denotes what it
denoted before, one step later.
-/

namespace Lasso

set_option autoImplicit false

/-- The view one step later, after which nothing more is known. -/
def View.advance (V : View) : View
  | .current i => V (.next i)
  | .next i => V (.next i)
  | .timed i t => V (.timed i t)

@[simp] theorem View.now_advance (V : View) : V.advance.now = V.next := rfl

@[simp] theorem View.next_advance (V : View) : V.advance.next = V.next := rfl

namespace Encoding

/-- The next form of a boolean variable, which is the variable itself if it has none. -/
def nextForm (e : Encoding) (v : Nat) : Lit :=
  match e.origins[v]? with
  | some (.current i) =>
    match e.vars[i]? with
    | some { role := .state next, .. } => next
    | _ => .pos v
  | _ => .pos v

theorem leafNext_eq (v : Nat) (e : Encoding) : leafNext v e = (e.nextForm v, e) := by
  change (match e.origins[v]? with
    | some (.current i) =>
      match e.vars[i]? with
      | some { role := .state next, .. } => (return next : StateM Encoding Lit)
      | _ => return .pos v
    | _ => return .pos v) e = _
  unfold nextForm
  cases e.origins[v]? with
  | none => rfl
  | some o =>
    cases o with
    | current i =>
      cases hx : e.vars[i]? with
      | none => simp only [hx]; rfl
      | some x =>
        obtain ⟨name, index, current, role⟩ := x
        cases role <;> simp only [hx] <;> rfl
    | next i => rfl
    | timed i t => rfl

theorem WellFormed.nextForm_cases {e : Encoding} (wf : e.WellFormed) (v : Nat) :
    e.nextForm v = .pos v ∨ ∃ i w, e.origins[v]? = some (.current i) ∧
      e.nextForm v = .pos w ∧ e.origins[w]? = some (.next i) := by
  unfold nextForm
  split
  · rename_i i ho
    split
    · rename_i x name index current next hx
      have hpos := (wf.positive i _ hx).2 next rfl
      refine .inr ⟨i, next.var, ho, Lit.eq_pos_of_negated hpos, (wf.next i next.var).2 ⟨_, hx, ?_⟩⟩
      rw [← Lit.eq_pos_of_negated hpos]
    · exact .inl rfl
  · exact .inl rfl

theorem nextForm_of_le {e e' : Encoding} (wf : e.WellFormed) (hle : e ≤ e') {v : Nat}
    (hv : v < e.graph.size) : e'.nextForm v = e.nextForm v := by
  unfold nextForm
  rw [hle.origins v hv]
  cases ho : e.origins[v]? with
  | none => rfl
  | some o =>
    cases o with
    | current i =>
      obtain ⟨x, hx, -⟩ := (wf.current i v).1 ho
      simp only [hx, hle.vars i x hx]
    | next i => rfl
    | timed i t => rfl

theorem leafNext_leaves : Leaves leafNext
    (fun e ρ σ => ∀ v, v < e.graph.size → σ v = ρ (e.nextForm v).var) where
  anti {e e'} ρ σ wf wf' hle h v hv := by
    rw [h v (Nat.lt_of_lt_of_le hv (Graph.size_le_of_le (graph_le hle))), nextForm_of_le wf hle hv]
  wf v wf := by
    rw [leafNext_eq]
    exact wf
  grows v wf := by
    rw [leafNext_eq]
  vars v wf := by
    rw [leafNext_eq]
  mem {e v} wf hv := by
    rw [leafNext_eq]
    rcases wf.nextForm_cases v with h | ⟨i, w, -, h, hw⟩
    · exact h ▸ wf.graph.pos_mem_of_input hv
    · exact h ▸ wf.pos_mem hw
  eval {e v} wf hv ρ σ h := by
    rw [leafNext_eq] at h ⊢
    have hsize := (Array.getElem?_eq_some_iff.1 hv).1
    rw [h v hsize]
    rcases wf.nextForm_cases v with h | ⟨i, w, -, h, hw⟩
    · rw [h, Graph.eval_pos, wf.graph.value_input hv]
      rfl
    · rw [h, Graph.eval_pos, wf.value_origin hw]
      rfl

theorem shift_eq (l : Lit) (e : Encoding) :
    shift l e = (match ((e.graph.support l).filterMap fun m : Lit => e.shiftError? m.var).getLast? with
      | some error => .error error
      | none => .ok (rebuild leafNext l e).1, (rebuild leafNext l e).2) := by
  change (match ((e.graph.support l).filterMap fun m : Lit => e.shiftError? m.var).getLast? with
    | some error => (return .error error : StateM Encoding (Except ShiftError Lit))
    | none => return .ok (rebuild leafNext l e).1) (rebuild leafNext l e).2 = _
  cases ((e.graph.support l).filterMap fun m : Lit => e.shiftError? m.var).getLast? <;> rfl

theorem shift_grows {e : Encoding} (wf : e.WellFormed) {l : Lit} (hl : l ∈ e.graph) :
    (shift l e).2.WellFormed ∧ e ≤ (shift l e).2 ∧ (shift l e).2.vars = e.vars := by
  have h := rebuild_rebuilds leafNext_leaves wf hl
  rw [shift_eq]
  exact ⟨h.wf, h.grows, h.vars⟩

theorem shiftError?_eq_none_of_shift {e : Encoding} {l m : Lit} (hm : (shift l e).1 = .ok m) :
    ∀ v ∈ e.graph.support l, e.shiftError? v.var = none := by
  rw [shift_eq] at hm
  dsimp only at hm
  split at hm
  · cases hm
  · rename_i hnone
    rw [List.getLast?_eq_none_iff, List.filterMap_eq_nil_iff] at hnone
    exact hnone

/-- The next form of an expression denotes what it denotes one step later. -/
theorem shift_denotes {e : Encoding} (wf : e.WellFormed) {l m : Lit} {φ : View → Bool}
    (hl : e.Denotes l φ) (hm : (shift l e).1 = .ok m) :
    (shift l e).2.Denotes m (fun V => φ V.advance) := by
  have h := rebuild_rebuilds leafNext_leaves wf hl.mem
  have hfree := shiftError?_eq_none_of_shift hm
  rw [shift_eq] at hm ⊢
  dsimp only at hm ⊢
  split at hm
  · cases hm
  cases hm
  refine ⟨h.mem, fun ρ V hV => ?_⟩
  -- the leaves as they are shifted, and as the later view has them; they agree on the support
  let σ : Assignment := fun v => ρ ((rebuild leafNext l e).2.nextForm v).var
  let τ : Assignment := fun v => match e.origins[v]? with
    | some o => V.advance o
    | none => ρ v
  have hτ : e.Agrees τ V.advance := by
    intro v o ho
    simp only [τ, ho]
  have hσ : e.graph.eval σ l = e.graph.eval τ l := by
    refine Graph.eval_congr_of_support fun v hv => ?_
    have hverr := hfree v hv
    have hlt : v.var < e.graph.size :=
      Nat.lt_of_le_of_lt (Graph.var_le_of_mem_support hv) hl.mem.2
    simp only [σ, τ, nextForm_of_le wf h.grows hlt]
    cases ho : e.origins[v.var]? with
    | none => simp [nextForm, ho]
    | some o =>
      cases o with
      | next i => simp [shiftError?, ho] at hverr
      | timed i t =>
        have hform : e.nextForm v.var = .pos v.var := by simp [nextForm, ho]
        rw [hform]
        exact hV v.var _ (origin_of_le wf h.grows ho)
      | current i =>
        obtain ⟨x, hx, -⟩ := (wf.current i v.var).1 ho
        obtain ⟨name, index, current, role⟩ := x
        cases role with
        | input => simp [shiftError?, ho, hx, Variable.isInput] at hverr
        | state next =>
          have hform : e.nextForm v.var = next := by simp [nextForm, ho, hx]
          have hpos := (wf.positive i _ hx).2 next rfl
          have hnext := (wf.next i next.var).2 ⟨_, hx, by rw [← Lit.eq_pos_of_negated hpos]⟩
          rw [hform]
          exact hV next.var _ (origin_of_le wf h.grows hnext)
  rw [h.eval ρ σ (fun v _ => rfl), hσ, hl.eval τ _ hτ]

theorem exists_shift_current {e : Encoding} (wf : e.WellFormed) {i : Nat} {x : Variable}
    (hx : e.vars[i]? = some x) (hstate : x.isInput = false) :
    ∃ m, (shift x.current e).1 = .ok m := by
  have hpos := Lit.eq_pos_of_negated (wf.positive i x hx).1
  have ho := (wf.current i x.current.var).2 ⟨x, hx, hpos⟩
  have hnone : (e.graph.support x.current).filterMap (fun m : Lit => e.shiftError? m.var) = [] := by
    rw [List.filterMap_eq_nil_iff]
    intro m hm
    rw [Graph.eq_pos_of_mem_support (wf.origins _ _ ho) hm]
    simp [shiftError?, ho, hx, hstate]
  rw [shift_eq, hnone]
  exact ⟨_, rfl⟩

end Encoding

end Lasso
