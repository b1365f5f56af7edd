import Lasso.Bounded.Trace
import Lasso.Proofs.Bounded.Encoder
import Lasso.Proofs.Graph.Satisfaction
import Lasso.Proofs.Machine.Path

/-! # Solutions and traces

A solution shows a view under which all of the expressions hold that were solved, and if there is
none, no view does.  The trace of a solution is the word of the view it shows.
-/

namespace Lasso

set_option autoImplicit false

namespace Graph

theorem values_spec {g : Graph} (wf : g.WellFormed) (ρ : Assignment) :
    (g.values ρ).size = g.size ∧
      ∀ v, 0 < v → v < g.size → (g.values ρ).getD v false = g.value ρ v := by
  refine Array.foldl_induction (fun i (vals : Array Bool) => vals.size = i ∧
    ∀ v, 0 < v → v < i → vals.getD v false = g.value ρ v) ⟨rfl, fun v _ hv => by omega⟩ ?_
  rintro ⟨i, hi⟩ vals ⟨hsize, hvals⟩
  obtain rfl : vals.size = i := hsize
  refine ⟨Array.size_push _, fun v hpos hv => ?_⟩
  simp only [Array.getD_eq_getD_getElem?] at hvals ⊢
  rcases Nat.lt_or_eq_of_le (Nat.le_of_lt_succ hv) with hlt | rfl
  · rw [Array.getElem?_push_lt hlt, ← Array.getElem?_eq_getElem, hvals v hpos hlt]
  · rw [Array.getElem?_push_size, Option.getD_some]
    have hnode := Array.getElem?_eq_getElem hi
    change _ = some (g.nodes[(⟨vals.size, hi⟩ : Fin _)]) at hnode
    cases hn : g.nodes[(⟨vals.size, hi⟩ : Fin _)] with
    | constant =>
      rw [hn] at hnode
      have hlt := (wf.constants _).1 hnode
      have hone : vals.size = 1 := Nat.le_antisymm (Nat.le_of_lt_succ hlt) hpos
      change true = g.value ρ vals.size
      rw [hone, value_one]
    | input =>
      rw [hn] at hnode
      exact (wf.value_input hnode ρ).symm
    | gate a b =>
      rw [hn] at hnode
      obtain ⟨ha, hb⟩ := wf.operands _ a b hnode
      rw [wf.value_gate hnode, eval, eval, ← hvals a.var ha.1 ha.2, ← hvals b.var hb.1 hb.2]

theorem evaluate_eq {g : Graph} (wf : g.WellFormed) (ρ : Assignment) {l : Lit} (hl : l ∈ g) :
    g.evaluate ρ l = g.eval ρ l := by
  rw [evaluate, eval, (values_spec wf ρ).2 l.var hl.1 hl.2]

end Graph

namespace Encoding

theorem forall_eval_iff {e : Encoding} {roots : List Lit} {φs : List (View → Bool)}
    (h : List.Forall₂ e.Denotes roots φs) {ρ : Assignment} {V : View} (hV : e.Agrees ρ V) :
    (∀ l ∈ roots, e.graph.eval ρ l = true) ↔ ∀ φ ∈ φs, φ V = true := by
  induction h with
  | nil => simp
  | cons hφ _ ih => rw [List.forall_mem_cons, List.forall_mem_cons, hφ.eval ρ V hV, ih]

theorem forall_of_solve [Solver] {e : Encoding} (wf : e.WellFormed) {roots : List Lit}
    {φs : List (View → Bool)} (h : List.Forall₂ e.Denotes roots φs) {ρ : Assignment}
    (hρ : e.graph.solve roots = some ρ) : ∀ φ ∈ φs, φ (e.viewOf ρ) = true :=
  (forall_eval_iff h (wf.agrees_viewOf ρ)).1 fun _ hl => Graph.eval_of_solve hρ hl

theorem solve_eq_none_iff [Solver] {e : Encoding} (wf : e.WellFormed) {roots : List Lit}
    {φs : List (View → Bool)} (h : List.Forall₂ e.Denotes roots φs) :
    e.graph.solve roots = none ↔ ∀ V, ¬ ∀ φ ∈ φs, φ V = true := by
  constructor
  · intro hnone V hall
    obtain ⟨l, hl, hfalse⟩ := Graph.exists_eval_eq_false_of_solve hnone (e.assign V)
    rw [(forall_eval_iff h (e.agrees_assign V)).2 hall l hl] at hfalse
    cases hfalse
  · intro hno
    cases hsolve : e.graph.solve roots with
    | none => rfl
    | some ρ => exact absurd (forall_of_solve wf h hsolve) (hno (e.viewOf ρ))

end Encoding

/-- The trace has the values of a view up to a time. -/
structure Trace.Records (tr : Trace) (e : Encoding) (n : Nat) (V : View) : Prop where
  vars : tr.vars = e.vars
  states : tr.states = (Encoding.instants 0 (n + 1)).map fun t =>
    e.vars.toList.map fun x => V.letter t x.index

theorem Trace.Records.of_vars {tr : Trace} {e e' : Encoding} {n : Nat} {V : View}
    (h : tr.Records e' n V) (hvars : e'.vars = e.vars) : tr.Records e n V :=
  ⟨h.vars.trans hvars, by rw [h.states, hvars]⟩

namespace Encoder

open Encoding

/-- From `e`, some timed variables were asked for. -/
structure Asks (e e' : Encoding) : Prop where
  wf : e'.WellFormed
  grows : e ≤ e'
  vars : e'.vars = e.vars

theorem Asks.trans {e₁ e₂ e₃ : Encoding} (h₁₂ : Asks e₁ e₂) (h₂₃ : Asks e₂ e₃) : Asks e₁ e₃ :=
  ⟨h₂₃.wf, le_trans h₁₂.grows h₂₃.grows, h₂₃.vars.trans h₁₂.vars⟩

theorem viewOf_variableAt {e e' : Encoding} (i : Nat) (t : UInt64) (wf : e.WellFormed)
    (wf' : e'.WellFormed) (hle : (variableAt i t e).2 ≤ e') (ρ : Assignment) :
    ρ (variableAt i t e).1.var = (e'.viewOf ρ).letter t i := by
  have hl := timeline_of_le (variableAt_builds wf i t).wf wf' hle (timeline_variableAt i t)
  rw [View.letter, viewOf, hl]
  rfl

theorem row_spec (vars : List Variable) (t : UInt64) {e : Encoding} (wf : e.WellFormed) :
    Asks e ((vars.mapM fun v => variableAt v.index t) e).2 ∧
      ∀ e' : Encoding, e'.WellFormed → ((vars.mapM fun v => variableAt v.index t) e).2 ≤ e' →
        ∀ ρ : Assignment, ((vars.mapM fun v => variableAt v.index t) e).1.map (ρ ·.var) =
          vars.map fun x => (e'.viewOf ρ).letter t x.index := by
  induction vars generalizing e with
  | nil => exact ⟨⟨wf, le_refl e, rfl⟩, fun _ _ _ _ => rfl⟩
  | cons x vars ih =>
    have hx := variableAt_builds wf x.index t
    obtain ⟨hasks, hrow⟩ := ih hx.wf
    rw [List.mapM_cons]
    refine ⟨Asks.trans ⟨hx.wf, hx.grows, hx.vars⟩ hasks, fun e' wf' hle ρ => ?_⟩
    have hfirst := viewOf_variableAt x.index t wf wf' (le_trans hasks.grows hle) ρ
    exact congrArg₂ List.cons hfirst (hrow e' wf' hle ρ)

theorem frame_spec (vars : List Variable) (count : Nat) (t : UInt64) {e : Encoding}
    (wf : e.WellFormed) :
    Asks e (frame vars count t e).2 ∧
      ∀ e' : Encoding, e'.WellFormed → (frame vars count t e).2 ≤ e' →
        ∀ ρ : Assignment, ((frame vars count t e).1.map fun row => row.map (ρ ·.var)) =
          (instants t count).map fun t => vars.map fun x => (e'.viewOf ρ).letter t x.index := by
  induction count generalizing e t with
  | zero => exact ⟨⟨wf, le_refl e, rfl⟩, fun _ _ _ _ => rfl⟩
  | succ count ih =>
    obtain ⟨hasks, hrow⟩ := row_spec vars t wf
    obtain ⟨hasks', hrows⟩ := ih (t + 1) hasks.wf
    refine ⟨hasks.trans hasks', fun e' wf' hle ρ => ?_⟩
    exact congrArg₂ List.cons (hrow e' wf' (le_trans hasks'.grows hle) ρ) (hrows e' wf' hle ρ)

theorem extract_leads {s : Encoder} (wf : s.WellFormed) (ρ : Assignment) (k : Int64) (l : Loop) :
    s.Leads (extract ρ k l s).2 := by
  have hasks := (frame_spec s.encoding.vars.toList (k.toInt + 1).toNat 0 wf.encoding).1
  exact wf.evolves hasks.wf hasks.grows hasks.vars _

/-- The trace of an assignment has the values of the view that the assignment shows. -/
theorem extract_records {s : Encoder} (wf : s.WellFormed) (ρ : Assignment) {n : Nat}
    (hn : n < 2 ^ 63) (l : Loop) :
    (extract ρ (.ofNat n) l s).1.Records s.encoding n
      ((extract ρ (.ofNat n) l s).2.encoding.viewOf ρ) := by
  obtain ⟨hasks, hrows⟩ := frame_spec s.encoding.vars.toList
    ((Int64.ofNat n).toInt + 1).toNat 0 wf.encoding
  have hcount : ((Int64.ofNat n).toInt + 1).toNat = n + 1 := by
    rw [Int64.toInt_ofNat_of_lt hn]
    omega
  refine ⟨hasks.vars, ?_⟩
  rw [← hcount]
  exact hrows _ hasks.wf (le_refl _) ρ

end Encoder

end Lasso
