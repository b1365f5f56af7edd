import Lasso.Proofs.Bounded.InductionSoundness
import Lasso.Proofs.Graph.Dimacs

/-! # Simple induction

A property that holds in first states and is kept by every step holds at the end of all paths.  Then
temporal induction needs one round only to prove it, and the paths on which simple induction finds
it violated are those that temporal induction finds in its first round.
-/

namespace Lasso

set_option autoImplicit false

namespace Machine

open Encoding

variable {m : Machine} {e : Encoding} {prop : Lit}

/-- The property is kept by every step between allowed states. -/
def Preserves (m : Machine) (e : Encoding) (prop : Lit) : Prop :=
  ∀ a b, m.Allowed e a → m.Moves e a b → m.Allowed e b → e.holds prop a a → e.holds prop b b

theorem Preserves.holdsAt (h : m.Preserves e prop) (hbase : m.HoldsAt e prop 0) (n : Nat) :
    m.HoldsAt e prop n := by
  induction n with
  | zero => exact hbase
  | succ n ih =>
    intro w hw
    have hholds := ih w (hw.shorter (Nat.le_succ n))
    obtain ⟨-, hallowed, hmoves⟩ := hw
    exact h _ _ (hallowed n (Nat.le_succ n)) (hmoves n (Nat.lt_succ_self n))
      (hallowed (n + 1) (Nat.le_refl _)) hholds

theorem Preserves.keptAfter (h : m.Preserves e prop) (k : Nat) : m.KeptAfter e prop k := by
  rintro w ⟨hfirst, hsteps⟩ hall -
  have hlast : m.Allowed e (w k) := by
    cases k with
    | zero => exact hfirst
    | succ k =>
      have := (hsteps k (by omega)).2
      rwa [Nat.zero_add] at this
  obtain ⟨hmove, hnext⟩ := hsteps k (Nat.lt_succ_self k)
  rw [Nat.zero_add] at hmove hnext
  exact h _ _ hlast hmove hnext (hall k (Nat.le_refl k))

theorem Over.preserves_iff {e' : Encoding} (wf : e.WellFormed) (hle : e ≤ e') (h : m.Over e)
    (hprop : e.Current prop) : m.Preserves e' prop ↔ m.Preserves e prop := by
  simp only [Preserves, h.allowed_iff wf hle, h.moves_iff wf hle,
    hprop.untimed.holds_of_le wf hle]

theorem steps_one_iff {w : Nat → Letter} :
    m.Steps e w 0 1 ↔ m.Allowed e (w 0) ∧ m.Moves e (w 0) (w 1) ∧ m.Allowed e (w 1) := by
  refine and_congr_right fun _ => ⟨fun h => h 0 Nat.zero_lt_one, fun h j hj => ?_⟩
  obtain rfl : j = 0 := by omega
  exact h

end Machine

theorem Encoding.isStateExpr_of_le {e e' : Encoding} (wf : e.WellFormed) (wf' : e'.WellFormed)
    (hle : e ≤ e') {l : Lit} (hmem : l ∈ e.graph) (h : e.isStateExpr l) : e'.isStateExpr l := by
  refine List.all_eq_true.2 fun k hk => ?_
  have hk' := (Graph.mem_support_iff_of_le wf.graph wf'.graph (graph_le hle) hmem).1 hk
  obtain ⟨x, hx, ho⟩ := exists_stateVariable wf h hk'
  obtain ⟨hvar, hrole⟩ := List.mem_filter.1 hx
  obtain ⟨i, hi⟩ := List.getElem?_of_mem hvar
  rw [Array.getElem?_toList] at hi
  rw [origin_of_le wf hle ho, wf.index i x hi]
  simp only [hle.vars i x hi, Option.map_some, Option.getD_some]
  exact hrole

namespace Encoder

open Encoding

section

variable {s : Encoder} {m : Machine} {prop : Lit} (wf : s.WellFormed) (hm : m.Over s.encoding)
  (hprop : s.encoding.Current prop)

include wf hm hprop

theorem solve_baseCase [Solver] :
    (baseCase m prop s).2.encoding.graph.solve [(baseCase m prop s).1.not] = none ↔
      m.HoldsAt s.encoding prop 0 := by
  have hmade := baseCase_makes wf hm hprop
  rw [solve_eq_none_iff hmade.leads.wf.encoding (.cons hmade.denotes.not .nil)]
  simp only [List.mem_singleton, forall_eq, Bool.not_eq_true', Bool.not_eq_false,
    Bool.or_eq_true, decide_eq_false_iff_not]
  constructor
  · intro h w hw
    have hword := View.word_ofWord w (n := 0) (by decide)
    have hsame : ∀ j ≤ 0, s.encoding.SameValues ((View.ofWord w).word j) (w j) := by
      intro j hj
      rw [Nat.le_zero.1 hj, hword]
      exact .refl _ _
    have hpath := (Machine.isPath_congr (m := m) wf.encoding hsame).2 hw
    have hholds := (h (View.ofWord w)).resolve_left (not_not.2 hpath)
    rwa [hword] at hholds
  · intro h V
    by_cases hpath : m.IsPath s.encoding V.word 0
    · exact .inr (h V.word hpath)
    · exact .inl hpath

theorem solve_inductiveStep [Solver] :
    (inductiveStep m prop s).2.encoding.graph.solve [(inductiveStep m prop s).1.not] = none ↔
      m.Preserves s.encoding prop := by
  have hmade := inductiveStep_makes wf hm hprop
  rw [solve_eq_none_iff hmade.leads.wf.encoding (.cons hmade.denotes.not .nil)]
  simp only [List.mem_singleton, forall_eq, Bool.not_eq_true', Bool.not_eq_false,
    Bool.or_eq_true, Bool.and_eq_false_iff, decide_eq_false_iff_not, Machine.steps_one_iff]
  constructor
  · intro h a b ha hmove hb hholds
    -- the two states in a row
    have hV := h (View.ofWord fun n => if n = 0 then a else b)
    rw [View.word_ofWord _ (by decide), View.word_ofWord _ (by decide)] at hV
    rcases hV with (hfails | hsteps) | hkept
    · exact absurd hholds (Bool.eq_false_iff.1 hfails)
    · exact absurd ⟨ha, hmove, hb⟩ hsteps
    · exact hkept
  · intro h V
    by_cases hsteps : m.Allowed s.encoding (V.word 0) ∧
        m.Moves s.encoding (V.word 0) (V.word 1) ∧ m.Allowed s.encoding (V.word 1)
    · cases hholds : s.encoding.holds prop (V.word 0) (V.word 0) with
      | false => exact .inl (.inl rfl)
      | true => exact .inr (h _ _ hsteps.1 hsteps.2.1 hsteps.2.2 hholds)
    · exact .inl (.inr hsteps)

theorem checkInduction_answers [Solver] (hstate : s.encoding.isStateExpr prop) :
    (checkInduction m prop s).1.error? = none ∧
      ((checkInduction m prop s).1.outcome = .counterexample ↔ ¬ m.HoldsAt s.encoding prop 0) ∧
      ((checkInduction m prop s).1.outcome = .proved ↔
        m.HoldsAt s.encoding prop 0 ∧ m.Preserves s.encoding prop) := by
  have hbase := solve_baseCase wf hm hprop
  have hto := (baseCase_makes wf hm hprop).leads
  have hstep := solve_inductiveStep hto.wf (hm.of_le wf.encoding hto.grows)
    (hprop.of_le wf.encoding hto.grows)
  rw [hm.preserves_iff wf.encoding hto.grows hprop] at hstep
  rw [checkInduction_eq, if_pos hstate]
  cases hroot : (baseCase m prop s).2.encoding.graph.solve [(baseCase m prop s).1.not] with
  | some ρ =>
    have hfails : ¬ m.HoldsAt s.encoding prop 0 := fun h => by
      rw [hbase.2 h] at hroot
      cases hroot
    exact ⟨rfl, iff_of_true rfl hfails, iff_of_false nofun fun h => hfails h.1⟩
  | none =>
    have hholds := hbase.1 hroot
    dsimp only
    generalize inductiveStep m prop (baseCase m prop s).2 = step at hstep
    cases hkept : step.2.encoding.graph.solve [step.1.not] with
    | none =>
      exact ⟨rfl, iff_of_false nofun (not_not.2 hholds), iff_of_true rfl ⟨hholds, hstep.1 hkept⟩⟩
    | some ρ =>
      have hbreaks : ¬ m.Preserves s.encoding prop := fun h => by
        rw [hstep.2 h] at hkept
        cases hkept
      exact ⟨rfl, iff_of_false nofun (not_not.2 hholds), iff_of_false nofun fun h => hbreaks h.2⟩

omit hprop in
theorem checkTemporalInduction_answers [Solver] (hmem : prop ∈ s.encoding.graph)
    (hstate : s.encoding.isStateExpr prop) {b : Nat} (hb : b < 2 ^ 63) :
    let r := (checkTemporalInduction m prop (.ofNat b) s).1
    (r.error? ≠ none → b + 1 = 2 ^ 63 ∧ r.outcome = .unknown) ∧
      (r.outcome = .counterexample ∧ r.bound = 0 ↔ ¬ m.HoldsAt s.encoding prop 0) ∧
      (m.HoldsAt s.encoding prop 0 → m.KeptAfter s.encoding prop 0 →
        r.outcome = .proved ∧ r.bound = 0) := by
  intro r
  obtain ⟨-, j, -, hbefore, hanswer⟩ := checkTemporalInduction_settles wf hm hmem hstate hb
  have herror : r.error? ≠ none → b + 1 = 2 ^ 63 ∧ r.outcome = .unknown := by
    intro herr
    rcases hanswer with ⟨-, hnone, -⟩ | ⟨-, hnone, -⟩ | ⟨-, hmax, -, hout⟩
    · exact absurd hnone herr
    · exact absurd hnone herr
    · exact ⟨hmax, hout⟩
  rcases Nat.eq_zero_or_pos j with rfl | hj
  · rcases hanswer with ⟨hlength, -⟩ | ⟨-, -, hbound, ⟨hout, hholds, -⟩ | ⟨hout, -, tr, V, -, href⟩⟩ |
      ⟨hlength, hmax, -⟩
    · omega
    · refine ⟨herror, iff_of_false (fun h => ?_) (not_not.2 hholds), fun _ _ => ⟨hout, hbound⟩⟩
      exact nomatch hout.symm.trans h.1
    · exact ⟨herror, iff_of_true ⟨hout, hbound⟩ href.not_holdsAt, fun hholds =>
        absurd hholds href.not_holdsAt⟩
    · omega
  · -- the first round settles nothing
    obtain ⟨hholds, hopen⟩ := hbefore 0 (Nat.le_refl 0) hj
    have hkept : m.HoldsAt s.encoding prop 0 → m.KeptAfter s.encoding prop 0 →
        r.outcome = .proved ∧ r.bound = 0 := fun _ hkept => absurd hkept hopen
    refine ⟨herror, iff_of_false (fun h => ?_) (not_not.2 hholds), hkept⟩
    rcases hanswer with ⟨-, -, hout⟩ | ⟨hlt, -, hbound, -⟩ | ⟨-, -, -, hout⟩
    · exact nomatch hout.symm.trans h.1
    · have hzero := congrArg Int64.toInt (hbound.symm.trans h.2)
      rw [Int64.toInt_ofNat_of_lt (by omega)] at hzero
      have : ((0 : Int64).toInt) = 0 := rfl
      omega
    · exact nomatch hout.symm.trans h.1

end

/-- A property that simple induction proves holds at the end of all paths, and temporal induction
proves it in its first round, whatever its bound is; and the two find the property violated in a
first state on the same machines.  It makes no difference what the encoders were used for before.
Simple induction does not fail, and temporal induction only at the largest length. -/
theorem checkInduction_subsumed [Solver] {m : Machine} {e : Encoding} {table : Table}
    {s s₁ s₂ : Encoder} (hbuilt : m.Built e) (huses : Uses m (fresh e table) s) {prop : Lit}
    (hmem : prop ∈ s.encoding.graph) (hstate : s.encoding.isStateExpr prop) (h₁ : Uses m s s₁)
    (h₂ : Uses m s s₂) {bound : Int64} (hbound : 0 ≤ bound) :
    let simple := (checkInduction m prop s₁).1
    let temporal := (checkTemporalInduction m prop bound s₂).1
    simple.error? = none ∧
    (temporal.error? ≠ none → bound = Int64.maxValue ∧ temporal.outcome = .unknown) ∧
    (simple.outcome = .proved →
      (∀ n, m.HoldsAt s.encoding prop n) ∧ (∀ k, ¬ Refutable m prop k s) ∧
      temporal.outcome = .proved ∧ temporal.bound = 0) ∧
    (simple.outcome = .counterexample ↔
      temporal.outcome = .counterexample ∧ temporal.bound = 0) := by
  intro simple temporal
  obtain ⟨wf, hm⟩ := huses.wellFormed hbuilt.wellFormed.1 hbuilt.wellFormed.2
  have hprop := current_of_isStateExpr wf.encoding hstate hmem
  obtain ⟨wf₁, hle₁⟩ := h₁.grows wf hm
  obtain ⟨wf₂, hle₂⟩ := h₂.grows wf hm
  obtain ⟨b, hb, rfl⟩ := exists_ofNat hbound
  obtain ⟨herror₁, hrefuted₁, hproved₁⟩ := checkInduction_answers wf₁ (hm.of_le wf.encoding hle₁)
    (hprop.of_le wf.encoding hle₁)
    (isStateExpr_of_le wf.encoding wf₁.encoding hle₁ hmem hstate)
  obtain ⟨herror₂, hrefuted₂, hproved₂⟩ := checkTemporalInduction_answers wf₂
    (hm.of_le wf.encoding hle₂)
    (Graph.mem_of_le (graph_le hle₂) hmem)
    (isStateExpr_of_le wf.encoding wf₂.encoding hle₂ hmem hstate) hb
  rw [hm.holdsAt_iff wf.encoding hle₁ hprop] at hrefuted₁ hproved₁
  rw [hm.preserves_iff wf.encoding hle₁ hprop] at hproved₁
  rw [hm.holdsAt_iff wf.encoding hle₂ hprop] at hrefuted₂ hproved₂
  refine ⟨herror₁, fun herr => (herror₂ herr).imp_left (ofNat_eq_maxValue_iff hb).2,
    fun hproved => ?_, hrefuted₁.trans hrefuted₂.symm⟩
  obtain ⟨hbase, hstep⟩ := hproved₁.1 hproved
  have hholds := hstep.holdsAt hbase
  refine ⟨hholds, fun k hk => (refutable_iff wf hm hprop k).1 hk (hholds _), ?_⟩
  exact hproved₂ hbase (((hm.preserves_iff wf.encoding hle₂ hprop).2 hstep).keptAfter 0)

/-- There is a machine whose constraint on all states is that a bit is set. -/
theorem exists_constraint : ∃ (m : Machine) (e : Encoding) (bit : Lit), m.Built e ∧ bit ∈ e.graph ∧
    e.isStateExpr bit ∧ ∀ a, m.Allowed e a → e.holds bit a a := by
  obtain ⟨y, hy, hstate⟩ : ∃ y : Variable, latchVariables.conditionName? "y" = some y.current ∧
      y ∈ latchVariables.stateVariables := ⟨_, rfl, List.mem_singleton.2 rfl⟩
  have hvariables := built_latchVariables
  generalize latchVariables = e at hvariables hy hstate
  obtain ⟨wf, hm⟩ := hvariables.wellFormed
  have hcondition : (condition false (.symbol () "y" : Expr)).run e = (.ok y.current, e) := by
    rw [condition_symbol_eq, hy]
  have hbuilt := hvariables.invar (congrArg Prod.fst hcondition)
  rw [hcondition] at hbuilt
  have hmem := (conditionName?_denotes wf hy).mem
  have hover := isStateExpr_current wf hstate
  have hcurrent := current_of_isStateExpr wf hover hmem
  have hgrows := (onGraph_builds Graph.and_computes wf hm.invar hcurrent).grows
  refine ⟨_, _, y.current, hbuilt, Graph.mem_of_le (graph_le hgrows) hmem,
    isStateExpr_of_le wf hbuilt.wellFormed.1 hgrows hmem hover, fun a ha => ?_⟩
  exact (hcurrent.untimed.holds_of_le wf hgrows a a).trans
    ((Machine.addInvar_allowed_iff wf hm hcurrent.untimed a).1 ha).2

/-- A bit that is set in all states is proved to be. -/
theorem checkInduction_subsumed_constraint :
    ∃ (m : Machine) (e : Encoding) (bit : Lit), m.Built e ∧ bit ∈ e.graph ∧ e.isStateExpr bit ∧
      (checkInduction m bit (fresh e {})).1.outcome = .proved ∧
      let simple := (checkInduction m bit (fresh e {})).1
      let temporal := (checkTemporalInduction m bit 3 (checkInduction m bit (fresh e {})).2).1
      simple.error? = none ∧ temporal.error? = none ∧
      (simple.outcome = .proved →
        (∀ n, m.HoldsAt e bit n) ∧ (∀ k, ¬ Refutable m bit k (fresh e {})) ∧
        temporal.outcome = .proved ∧ temporal.bound = 0) ∧
      (simple.outcome = .counterexample ↔
        temporal.outcome = .counterexample ∧ temporal.bound = 0) := by
  obtain ⟨m, e, bit, hbuilt, hmem, hstate, hallowed⟩ := exists_constraint
  obtain ⟨wf, hm⟩ := hbuilt.wellFormed
  have hproved := (checkInduction_answers (s := fresh e {}) (wellFormed_of_entries wf rfl) hm
    (current_of_isStateExpr wf hstate hmem) hstate).2.2.2
    ⟨fun w hw => hallowed _ (hw.2.1 0 (Nat.le_refl 0)), fun a b _ _ hb _ => hallowed b hb⟩
  have hafter : Uses m (fresh e {}) (checkInduction m bit (fresh e {})).2 :=
    .single (.checkInduction hmem)
  obtain ⟨hsimple, htemporal, hanswers⟩ :=
    checkInduction_subsumed hbuilt .refl hmem hstate .refl hafter (show (0 : Int64) ≤ 3 by decide)
  refine ⟨m, e, bit, hbuilt, hmem, hstate, hproved, hsimple, ?_, hanswers⟩
  by_contra herr
  exact absurd (htemporal herr).1 (by decide)

end Encoder

end Lasso
