import Lasso.Proofs.Graph.Support
import Lasso.Proofs.Machine.Condition
import Lasso.Proofs.Machine.NextForm
import Lasso.Proofs.Machine.Path

/-! # What constraints depend on

An untimed expression depends on the declared variables now and on the state variables one step
later, since only these have a next form.  An expression over states depends on nothing but the
state variables now.
-/

namespace Lasso

set_option autoImplicit false

namespace Encoding

/-- The declared variables have the same values. -/
def SameValues (e : Encoding) (a b : Letter) : Prop := ∀ i < e.vars.size, a i = b i

def sameState (e : Encoding) (a b : Letter) : Bool :=
  e.stateVariables.all fun x => a x.index == b x.index

theorem sameState_iff {e : Encoding} {a b : Letter} :
    e.sameState a b ↔ ∀ x ∈ e.stateVariables, a x.index = b x.index := by
  simp only [sameState, List.all_eq_true, beq_iff_eq]

theorem SameValues.refl (e : Encoding) (a : Letter) : e.SameValues a a := fun _ _ => rfl

theorem WellFormed.lt_size_of_mem {e : Encoding} (wf : e.WellFormed) {x : Variable}
    (hx : x ∈ e.vars) : x.index < e.vars.size := by
  obtain ⟨i, hi, rfl⟩ := Array.mem_iff_getElem.1 hx
  rw [wf.index i _ (Array.getElem?_eq_getElem hi)]
  exact hi

theorem WellFormed.mem_stateVariables {e : Encoding} (wf : e.WellFormed) {i : Nat} {x : Variable}
    (hx : e.vars[i]? = some x) (hrole : x.isInput = false) :
    x ∈ e.stateVariables ∧ x.index = i := by
  refine ⟨List.mem_filter.2 ⟨?_, by rw [hrole]; rfl⟩, wf.index i x hx⟩
  exact Array.mem_toList_iff.2 (Array.mem_of_getElem? hx)

theorem SameValues.sameState {e : Encoding} (wf : e.WellFormed) {a b : Letter}
    (h : e.SameValues a b) : e.sameState a b := by
  refine sameState_iff.2 fun x hx => h x.index (wf.lt_size_of_mem ?_)
  exact Array.mem_toList_iff.1 (List.mem_filter.1 hx).1

section

variable {e : Encoding} (wf : e.WellFormed) {l : Lit} {now now' next next' : Letter}

include wf

theorem holds_congr (hnow : e.SameValues now now') (hnext : e.sameState next next') :
    e.holds l now next = e.holds l now' next' := by
  have hassign : e.assign (View.step now next) = e.assign (View.step now' next') := by
    funext v
    unfold assign
    cases ho : e.origins[v]? with
    | none => rfl
    | some o =>
      cases o with
      | current i =>
        obtain ⟨x, hx, -⟩ := (wf.current i v).1 ho
        exact hnow i (Array.getElem?_eq_some_iff.1 hx).1
      | next i =>
        obtain ⟨x, hx, hrole⟩ := (wf.next i v).1 ho
        have hstate : x.isInput = false := by
          rw [Variable.isInput, hrole]
          rfl
        obtain ⟨hmem, hindex⟩ := wf.mem_stateVariables hx hstate
        have hsame := sameState_iff.1 hnext x hmem
        rw [hindex] at hsame
        exact hsame
      | timed i t => rfl
  rw [holds, holds, hassign]

/-- The support of an expression over states consists of current forms of state variables. -/
theorem exists_stateVariable (hl : e.isStateExpr l) {k : Lit} (hk : k ∈ e.graph.support l) :
    ∃ x ∈ e.stateVariables, e.origins[k.var]? = some (.current x.index) := by
  have hk' := List.all_eq_true.1 hl k hk
  revert hk'
  cases ho : e.origins[k.var]? with
  | none => exact nofun
  | some o =>
    cases o with
    | next i => exact nofun
    | timed i t => exact nofun
    | current i =>
      intro hk'
      obtain ⟨x, hx, -⟩ := (wf.current i k.var).1 ho
      simp only [hx, Option.map_some, Option.getD_some, Bool.not_eq_true'] at hk'
      obtain ⟨hmem, hindex⟩ := wf.mem_stateVariables hx hk'
      exact ⟨x, hmem, by rw [hindex]⟩

theorem current_of_isStateExpr (hl : e.isStateExpr l) (hmem : l ∈ e.graph) : e.Current l := by
  refine ⟨hmem, fun ρ V hV => Graph.eval_congr_of_support fun k hk => ?_⟩
  obtain ⟨x, -, ho⟩ := exists_stateVariable wf hl hk
  rw [hV k.var _ ho, assign, ho]
  rfl

theorem holds_congr_of_isStateExpr (hl : e.isStateExpr l) (hnow : e.sameState now now') :
    e.holds l now next = e.holds l now' next' := by
  refine Graph.eval_congr_of_support fun k hk => ?_
  obtain ⟨x, hx, ho⟩ := exists_stateVariable wf hl hk
  rw [assign, assign, ho]
  exact sameState_iff.1 hnow x hx

theorem isStateExpr_current {x : Variable} (hx : x ∈ e.stateVariables) :
    e.isStateExpr x.current := by
  obtain ⟨hmem, hrole⟩ := List.mem_filter.1 hx
  obtain ⟨i, hi⟩ := List.getElem?_of_mem hmem
  rw [Array.getElem?_toList] at hi
  have hpos := Lit.eq_pos_of_negated (wf.positive i x hi).1
  have ho : e.origins[x.current.var]? = some (.current i) := (wf.current i _).2 ⟨x, hi, hpos⟩
  refine List.all_eq_true.2 fun k hk => ?_
  rw [Graph.eq_pos_of_mem_support (wf.origins _ _ ho) hk, Lit.var_pos, ho]
  simp only [hi, Option.map_some, Option.getD_some]
  exact hrole

theorem exists_shift (hl : e.isStateExpr l) : ∃ k, (shift l e).1 = .ok k := by
  have hnone : (e.graph.support l).filterMap (fun k : Lit => e.shiftError? k.var) = [] := by
    refine List.filterMap_eq_nil_iff.2 fun k hk => ?_
    obtain ⟨x, hx, ho⟩ := exists_stateVariable wf hl hk
    obtain ⟨hmem, hrole⟩ := List.mem_filter.1 hx
    obtain ⟨i, hi⟩ := List.getElem?_of_mem hmem
    rw [Array.getElem?_toList] at hi
    rw [shiftError?, ho, wf.index i x hi]
    simp only [hi]
    rw [if_neg (Bool.eq_false_iff.1 (Bool.not_eq_true' _ ▸ hrole))]
  rw [shift_eq, hnone]
  exact ⟨_, rfl⟩

end

theorem nameValue_congr {e : Encoding} (wf : e.WellFormed) {a b : Letter} (h : e.SameValues a b)
    (name : String) : e.nameValue a name = e.nameValue b name := by
  have hlookup : (e.lookup? name).elim false (fun x => a x.index) =
      (e.lookup? name).elim false fun x => b x.index := by
    cases hx : e.lookup? name with
    | none => rfl
    | some x => exact h x.index (wf.lt_size_of_mem (Array.mem_of_find?_eq_some hx))
  unfold nameValue
  split
  case h_7 => exact hlookup
  all_goals rfl

mutual

theorem conditionValue_congr {α : Type} {e : Encoding} (wf : e.WellFormed)
    {now now' next next' : Letter} (hnow : e.SameValues now now')
    (hnext : e.SameValues next next') : (x : SExpr α) →
    e.conditionValue now next x = e.conditionValue now' next' x
  | .symbol _ name => by
    rw [conditionValue, conditionValue]
    exact nameValue_congr wf hnow name
  | .list _ (.symbol _ name :: args) => by
    rw [conditionValue, conditionValue, conditionValues_congr wf hnow hnext args,
      conditionValues_congr wf hnext hnext args]
  | .list _ [] => by rw [conditionValue, conditionValue] <;> exact nofun
  | .list _ (.list _ _ :: _) => by rw [conditionValue, conditionValue] <;> exact nofun

theorem conditionValues_congr {α : Type} {e : Encoding} (wf : e.WellFormed)
    {now now' next next' : Letter} (hnow : e.SameValues now now')
    (hnext : e.SameValues next next') : (xs : List (SExpr α)) →
    e.conditionValues now next xs = e.conditionValues now' next' xs
  | [] => by rw [conditionValues, conditionValues]
  | x :: xs => by
    rw [conditionValues, conditionValues, conditionValue_congr wf hnow hnext x,
      conditionValues_congr wf hnow hnext xs]

end

end Encoding

namespace Machine

open Encoding

variable {m : Machine} {e : Encoding} (wf : e.WellFormed)

include wf

theorem initial_congr {a b : Letter} (h : e.SameValues a b) : m.Initial e a ↔ m.Initial e b := by
  rw [Initial, Initial, holds_congr wf h (h.sameState wf)]

theorem allowed_congr {a b : Letter} (h : e.SameValues a b) : m.Allowed e a ↔ m.Allowed e b := by
  rw [Allowed, Allowed, holds_congr wf h (h.sameState wf)]

theorem moves_congr {a a' b b' : Letter} (ha : e.SameValues a a') (hb : e.sameState b b') :
    m.Moves e a b ↔ m.Moves e a' b' := by
  rw [Moves, Moves, holds_congr wf ha hb]

theorem isPath_congr {w w' : Nat → Letter} {length : Nat}
    (h : ∀ j ≤ length, e.SameValues (w j) (w' j)) :
    m.IsPath e w length ↔ m.IsPath e w' length := by
  refine and_congr (initial_congr wf (h 0 (Nat.zero_le _))) (and_congr ?_ ?_)
  · exact forall₂_congr fun j hj => allowed_congr wf (h j hj)
  · exact forall₂_congr fun j hj =>
      moves_congr wf (h j (Nat.le_of_lt hj)) ((h (j + 1) hj).sameState wf)

end Machine

end Lasso
