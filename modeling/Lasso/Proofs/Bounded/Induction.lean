import Lasso.Proofs.Bounded.Distinct
import Lasso.Proofs.Bounded.Trace
import Lasso.Proofs.Machine.Cut

/-! # Temporal induction

The problems that temporal induction solves for a length are whether a property holds at the end of
all paths of that length, and whether it is kept after as many steps that repeat no state.  The
answers are those of the first length that settles the matter.
-/

namespace Lasso

set_option autoImplicit false

namespace View

/-- The view of the timeline on which the variables have the values of a word. -/
def ofWord (w : Nat → Letter) : View
  | .timed i t => w t.toNat i
  | _ => false

theorem word_ofWord (w : Nat → Letter) {n : Nat} (h : n < 2 ^ 64) : (ofWord w).word n = w n := by
  change w (UInt64.ofNat n).toNat = w n
  rw [UInt64.toNat_ofNat_of_lt' h]

end View

namespace Encoder

open Encoding

section

variable {s : Encoder} {m : Machine} {prop : Lit} (wf : s.WellFormed) (hm : m.Over s.encoding)
  (hprop : s.encoding.Current prop) {n : Nat}

include wf hm hprop

theorem keptAfter_of_leads {s' : Encoder} (h : s.Leads s') (n : Nat) :
    m.KeptAfter s'.encoding prop n ↔ m.KeptAfter s.encoding prop n := by
  simp only [Machine.KeptAfter, hm.steps_iff wf.encoding h.grows, h.sameState_eq,
    hprop.untimed.holds_of_le wf.encoding h.grows]

theorem baseProblem_spec (hn : n < 2 ^ 64) :
    s.Leads (baseProblem m prop (.ofNat n) s).2 ∧
      List.Forall₂ (baseProblem m prop (.ofNat n) s).2.encoding.Denotes
        (baseProblem m prop (.ofNat n) s).1
        [fun V => decide (m.IsPath s.encoding V.word n),
          fun V => !s.encoding.holds prop (V.word n) (V.word n)] := by
  have hnat : (UInt64.ofNat n).toNat = n := UInt64.toNat_ofNat_of_lt' hn
  have hholds := Makes.of_builds wf (instantiate_current wf.encoding hprop (.ofNat n))
  have hpath := Makes.of_builds hholds.leads.wf (Machine.path_builds hholds.leads.wf.encoding
    (hm.of_le wf.encoding hholds.leads.grows) (.ofNat n))
  rw [hnat] at hholds hpath
  refine ⟨hholds.leads.trans hpath.leads, .cons (hpath.denotes.congr fun V => ?_)
    (.cons (hpath.leads.denotes hholds.leads.wf hholds.denotes).not .nil)⟩
  simp only [hm.isPath_iff wf.encoding hholds.leads.grows]

theorem solve_baseProblem [Solver] (hn : n < 2 ^ 64) :
    (baseProblem m prop (.ofNat n) s).2.encoding.graph.solve
        (baseProblem m prop (.ofNat n) s).1 = none ↔ m.HoldsAt s.encoding prop n := by
  obtain ⟨hleads, hroots⟩ := baseProblem_spec wf hm hprop hn
  have hsolve := solve_eq_none_iff hleads.wf.encoding hroots
  simp only [List.mem_cons, List.not_mem_nil, or_false, forall_eq_or_imp, forall_eq,
    decide_eq_true_iff, Bool.not_eq_true'] at hsolve
  refine hsolve.trans ⟨fun h w hw => ?_, fun h V hboth => ?_⟩
  · have hword : ∀ j ≤ n, (View.ofWord w).word j = w j := fun j hj =>
      View.word_ofWord w (by omega)
    by_contra hfails
    refine h (View.ofWord w) ⟨(Machine.isPath_congr wf.encoding fun j hj => ?_).2 hw, ?_⟩
    · rw [hword j hj]
      exact .refl _ _
    · rw [hword n (Nat.le_refl n)]
      exact Bool.eq_false_iff.2 hfails
  · obtain ⟨hV, hfails⟩ := hboth
    rw [h V.word hV] at hfails
    cases hfails

/-- The problem of the step holds on steps without repeated states that lead to a violation, where
the length after the largest is a negative word and leaves states free to be repeated. -/
theorem stepProblem_spec (hn : n < 2 ^ 63) :
    s.Leads (stepProblem m prop (.ofNat n) s).2 ∧
      List.Forall₂ (stepProblem m prop (.ofNat n) s).2.encoding.Denotes
        (stepProblem m prop (.ofNat n) s).1
        [fun V => decide (m.Steps s.encoding V.word 0 (n + 1)),
          fun V => decide (∀ j ≤ (Int64.ofNat (n + 1)).toNatClampNeg, ∀ i < j,
            s.encoding.sameState (V.word i) (V.word j) = false),
          fun V => decide (∀ j ≤ n, s.encoding.holds prop (V.word j) (V.word j)),
          fun V => !s.encoding.holds prop (V.word (n + 1)) (V.word (n + 1))] := by
  have hnat : ∀ j ≤ 2 ^ 63, (UInt64.ofNat j).toNat = j := fun j hj =>
    UInt64.toNat_ofNat_of_lt' (show j < 2 ^ 64 by omega)
  have hsucc : Int64.ofNat n + 1 = Int64.ofNat (n + 1) := (Int64.ofNat_add n 1).symm
  have hbefore := Makes.of_builds wf (always_builds wf.encoding hprop 0 (.ofNat n))
  have hafter := Makes.of_builds hbefore.leads.wf (instantiate_current hbefore.leads.wf.encoding
    (hprop.of_le wf.encoding hbefore.leads.grows) (.ofNat (n + 1)))
  have hto := hbefore.leads.trans hafter.leads
  have hsteps := Makes.of_builds hto.wf (Machine.unroll_builds hto.wf.encoding
    (hm.of_le wf.encoding hto.grows) 0 (.ofNat (n + 1)))
  have hto' := hto.trans hsteps.leads
  have hdistinct := loopFree_makes (.ofNat (n + 1)) hto'.wf
  have hlater := hsteps.leads.trans hdistinct.leads
  unfold stepProblem
  rw [hsucc]
  refine ⟨hto'.trans hdistinct.leads,
    .cons ((hdistinct.leads.denotes hto'.wf hsteps.denotes).congr fun V => ?_)
    (.cons (hdistinct.denotes.congr fun V => ?_)
    (.cons (((hafter.leads.trans hlater).denotes hbefore.leads.wf hbefore.denotes).congr
      fun V => ?_)
    (.cons ((hlater.denotes hto.wf hafter.denotes).not.congr fun V => ?_) .nil)))⟩
  · simp only [hnat (n + 1) (by omega), hm.steps_iff wf.encoding hto.grows]
    rfl
  · simp only [hto'.sameState_eq]
  · rw [Bool.eq_iff_iff, List.all_eq_true, decide_eq_true_iff]
    simp only [mem_instants_intervalLength_iff, View.now_atTime, V.letter_eq_word]
    constructor
    · intro h j hj
      have := h (.ofNat j) ⟨UInt64.zero_le, UInt64.le_iff_toNat_le.2 ?_⟩
      · rwa [hnat j (by omega)] at this
      · rw [hnat j (by omega), hnat n (by omega)]
        exact hj
    · intro h t ht
      refine h t.toNat ?_
      have := UInt64.le_iff_toNat_le.1 ht.2
      rwa [hnat n (by omega)] at this
  · rw [hnat (n + 1) (by omega), hprop.untimed.holds_of_le wf.encoding hbefore.leads.grows]

theorem solve_stepProblem_iff [Solver] (hn : n < 2 ^ 63) :
    (stepProblem m prop (.ofNat n) s).2.encoding.graph.solve
        (stepProblem m prop (.ofNat n) s).1 = none ↔
      ∀ V : View, m.Steps s.encoding V.word 0 (n + 1) →
        (∀ j ≤ (Int64.ofNat (n + 1)).toNatClampNeg, ∀ i < j,
          s.encoding.sameState (V.word i) (V.word j) = false) →
        (∀ j ≤ n, s.encoding.holds prop (V.word j) (V.word j)) →
        s.encoding.holds prop (V.word (n + 1)) (V.word (n + 1)) := by
  obtain ⟨hleads, hroots⟩ := stepProblem_spec wf hm hprop hn
  rw [solve_eq_none_iff hleads.wf.encoding hroots]
  simp only [List.mem_cons, List.not_mem_nil, or_false, forall_eq_or_imp, forall_eq,
    decide_eq_true_iff, Bool.not_eq_true', not_and, Bool.not_eq_false]

/-- If there is no solution, the property is kept, also at the largest length. -/
theorem keptAfter_of_solve_stepProblem [Solver] (hn : n < 2 ^ 63)
    (hnone : (stepProblem m prop (.ofNat n) s).2.encoding.graph.solve
      (stepProblem m prop (.ofNat n) s).1 = none) : m.KeptAfter s.encoding prop n := by
  have hkept := (solve_stepProblem_iff wf hm hprop hn).1 hnone
  intro w hw hall hdiff
  have hword : ∀ j ≤ n + 1, (View.ofWord w).word j = w j := fun j hj =>
    View.word_ofWord w (by omega)
  have hlast : (Int64.ofNat (n + 1)).toNatClampNeg ≤ n + 1 := by
    obtain hlt | hmax : n + 1 < 2 ^ 63 ∨ n + 1 = 2 ^ 63 := by omega
    · exact Nat.le_of_eq (Int64.toNatClampNeg_ofNat_of_lt hlt)
    · have hzero : (Int64.ofNat (2 ^ 63)).toNatClampNeg = 0 := by decide
      rw [hmax, hzero]
      exact Nat.zero_le _
  have hnext := hkept (View.ofWord w) ⟨?_, fun j hj => ?_⟩ (fun j hj i hij => ?_) fun j hj => ?_
  · rwa [hword (n + 1) (Nat.le_refl _)] at hnext
  · rw [hword 0 (by omega)]
    exact hw.1
  · rw [hword (0 + j) (by omega), hword (0 + j + 1) (by omega)]
    exact hw.2 j hj
  · rw [hword i (by omega), hword j (by omega)]
    exact hdiff j (Nat.le_trans hj hlast) i hij
  · rw [hword j (by omega)]
    exact hall j hj

theorem solve_stepProblem [Solver] (hn : n + 1 < 2 ^ 63) :
    (stepProblem m prop (.ofNat n) s).2.encoding.graph.solve
        (stepProblem m prop (.ofNat n) s).1 = none ↔ m.KeptAfter s.encoding prop n := by
  constructor
  · exact keptAfter_of_solve_stepProblem wf hm hprop (by omega)
  · intro hkept
    rw [solve_stepProblem_iff wf hm hprop (by omega), Int64.toNatClampNeg_ofNat_of_lt hn]
    exact fun V hV hdiff hall => hkept V.word hV hall hdiff

end

theorem solve_apply [Solver] (roots : List Lit) (s : Encoder) :
    solve roots s = (s.encoding.graph.solve roots, s) := rfl

theorem induceFrom_zero [Solver] (m : Machine) (prop : Lit) (bound k : Int64) (s : Encoder) :
    induceFrom m prop bound 0 k s =
      (if k ≤ bound then .overrun bound else { outcome := .noCounterexample, bound }, s) := by
  rw [induceFrom]
  split <;> rfl

theorem induceFrom_succ [Solver] (m : Machine) (prop : Lit) (bound : Int64) (count : Nat)
    (k : Int64) (s : Encoder) :
    induceFrom m prop bound (count + 1) k s =
      match (baseProblem m prop k.toUInt64 s).2.encoding.graph.solve
        (baseProblem m prop k.toUInt64 s).1 with
      | some ρ =>
        if k = Int64.maxValue then (.overrun k, (baseProblem m prop k.toUInt64 s).2)
        else
          let t := extract ρ k .none (baseProblem m prop k.toUInt64 s).2
          ({ outcome := .counterexample, bound := k, trace? := t.1 }, t.2)
      | none =>
        let step := stepProblem m prop k (baseProblem m prop k.toUInt64 s).2
        match step.2.encoding.graph.solve step.1 with
        | none => ({ outcome := .proved, bound := k }, step.2)
        | some _ => induceFrom m prop bound count (k + 1) step.2 := by
  rw [induceFrom, bind_apply, bind_apply, solve_apply]
  cases (baseProblem m prop k.toUInt64 s).2.encoding.graph.solve
      (baseProblem m prop k.toUInt64 s).1 with
  | some ρ =>
    dsimp only
    split <;> rfl
  | none =>
    dsimp only
    rw [bind_apply, bind_apply, solve_apply]
    cases (stepProblem m prop k (baseProblem m prop k.toUInt64 s).2).2.encoding.graph.solve
        (stepProblem m prop k (baseProblem m prop k.toUInt64 s).2).1 with
    | some ρ => rfl
    | none => rfl

/-- The trace shows a view of a path that ends in a violation. -/
structure Refutes (m : Machine) (e : Encoding) (prop : Lit) (n : Nat) (tr : Trace) (V : View) :
    Prop where
  records : tr.Records e n V
  path : m.IsPath e V.word n
  fails : e.holds prop (V.word n) (V.word n) = false

theorem extract_refutes [Solver] {s : Encoder} {m : Machine} {prop : Lit} (wf : s.WellFormed)
    (hm : m.Over s.encoding) (hprop : s.encoding.Current prop) {n : Nat} (hn : n < 2 ^ 63)
    {ρ : Assignment} (hsolved : (baseProblem m prop (.ofNat n) s).2.encoding.graph.solve
      (baseProblem m prop (.ofNat n) s).1 = some ρ) :
    ∃ V, Refutes m s.encoding prop n
      (extract ρ (.ofNat n) .none (baseProblem m prop (.ofNat n) s).2).1 V := by
  obtain ⟨hbase, hroots⟩ := baseProblem_spec wf hm hprop (show n < 2 ^ 64 by omega)
  have htrace := extract_leads hbase.wf ρ (.ofNat n) .none
  have hrecords := extract_records hbase.wf ρ hn .none
  have hV := (htrace.wf.encoding.agrees_viewOf ρ).of_le hbase.wf.encoding htrace.grows
  have hall := (forall_eval_iff hroots hV).1 fun l hl => Graph.eval_of_solve hsolved hl
  simp only [List.mem_cons, List.not_mem_nil, or_false, forall_eq_or_imp, forall_eq,
    decide_eq_true_iff, Bool.not_eq_true'] at hall
  exact ⟨_, hrecords.of_vars hbase.vars, hall.1, hall.2⟩

/-- What a search for lengths from `n` up to a bound comes to at a length that is the first to settle
the matter, lies beyond the bound or is the largest. -/
structure Settles (m : Machine) (e : Encoding) (prop : Lit) (b n : Nat) (r : CheckResult)
    (j : Nat) : Prop where
  from_le : n ≤ j
  open_before : ∀ i, n ≤ i → i < j → m.HoldsAt e prop i ∧ ¬ m.KeptAfter e prop i
  answer : (j = b + 1 ∧ r.error? = none ∧ r.outcome = .noCounterexample) ∨
    (j ≤ b ∧ r.error? = none ∧ r.bound = .ofNat j ∧
      ((r.outcome = .proved ∧ m.HoldsAt e prop j ∧ m.KeptAfter e prop j) ∨
        (r.outcome = .counterexample ∧ j + 1 < 2 ^ 63 ∧
          ∃ tr V, r.trace? = some tr ∧ Refutes m e prop j tr V))) ∨
    (j = b ∧ b + 1 = 2 ^ 63 ∧ r.error? ≠ none ∧ r.outcome = .unknown)

theorem Refutes.not_holdsAt {m : Machine} {e : Encoding} {prop : Lit} {n : Nat} {tr : Trace}
    {V : View} (h : Refutes m e prop n tr V) : ¬ m.HoldsAt e prop n := fun hholds =>
  Bool.eq_false_iff.1 h.fails (hholds V.word h.path)

section

variable {s s' : Encoder} {m : Machine} {prop : Lit} (wf : s.WellFormed) (hm : m.Over s.encoding)
  (hprop : s.encoding.Current prop) (h : s.Leads s')

include wf hm hprop h

theorem Refutes.of_leads {n : Nat} {tr : Trace} {V : View}
    (href : Refutes m s'.encoding prop n tr V) : Refutes m s.encoding prop n tr V where
  records := href.records.of_vars h.vars
  path := (hm.isPath_iff wf.encoding h.grows _ _).1 href.path
  fails := by
    rw [← hprop.untimed.holds_of_le wf.encoding h.grows]
    exact href.fails

theorem Settles.of_leads {b n j : Nat} {r : CheckResult}
    (hsettles : Settles m s'.encoding prop b n r j) : Settles m s.encoding prop b n r j := by
  obtain ⟨hle, hbefore, hanswer⟩ := hsettles
  simp only [hm.holdsAt_iff wf.encoding h.grows hprop, keptAfter_of_leads wf hm hprop h]
    at hbefore hanswer
  refine ⟨hle, hbefore, hanswer.imp_right (Or.imp_left ?_)⟩
  rintro ⟨hj, herror, hbound, hfound⟩
  exact ⟨hj, herror, hbound, hfound.imp_right fun ⟨hout, hsmall, tr, V, htr, href⟩ =>
    ⟨hout, hsmall, tr, V, htr, href.of_leads wf hm hprop h⟩⟩

end

theorem Settles.round {m : Machine} {e : Encoding} {prop : Lit} {b n : Nat} {r : CheckResult}
    {j : Nat} (h : Settles m e prop b (n + 1) r j) (hholds : m.HoldsAt e prop n)
    (hkept : ¬ m.KeptAfter e prop n) : Settles m e prop b n r j where
  from_le := Nat.le_of_succ_le h.from_le
  open_before i hi hij := by
    rcases Nat.eq_or_lt_of_le hi with rfl | hlt
    · exact ⟨hholds, hkept⟩
    · exact h.open_before i hlt hij
  answer := h.answer

/-- A search that ends in its first round. -/
theorem Settles.here {m : Machine} {e : Encoding} {prop : Lit} {b n : Nat} {r : CheckResult}
    (answer : (n = b + 1 ∧ r.error? = none ∧ r.outcome = .noCounterexample) ∨
      (n ≤ b ∧ r.error? = none ∧ r.bound = .ofNat n ∧
        ((r.outcome = .proved ∧ m.HoldsAt e prop n ∧ m.KeptAfter e prop n) ∨
          (r.outcome = .counterexample ∧ n + 1 < 2 ^ 63 ∧
            ∃ tr V, r.trace? = some tr ∧ Refutes m e prop n tr V))) ∨
      (n = b ∧ b + 1 = 2 ^ 63 ∧ r.error? ≠ none ∧ r.outcome = .unknown)) :
    Settles m e prop b n r n :=
  ⟨Nat.le_refl n, fun _ hi hin => absurd hi (Nat.not_le.2 hin), answer⟩

theorem add_one_le_of_largest {n : Nat} (hn : n + 1 = 2 ^ 63) (k : Int64) :
    Int64.ofNat n + 1 ≤ k := by
  have hsucc : Int64.ofNat n + 1 = .ofNat (n + 1) := (Int64.ofNat_add n 1).symm
  rw [hsucc, hn]
  exact Int64.minValue_le k

theorem induceFrom_spec [Solver] {s : Encoder} {m : Machine} {prop : Lit} {b : Nat}
    (hb : b < 2 ^ 63) (count : Nat) {n : Nat} (hcount : n + count = b + 1) (hn : n < 2 ^ 63)
    (wf : s.WellFormed) (hm : m.Over s.encoding) (hprop : s.encoding.Current prop) :
    s.Leads (induceFrom m prop (.ofNat b) count (.ofNat n) s).2 ∧
      ∃ j, Settles m s.encoding prop b n (induceFrom m prop (.ofNat b) count (.ofNat n) s).1 j := by
  induction count generalizing s n with
  | zero =>
    have hbeyond : ¬ Int64.ofNat n ≤ .ofNat b := by
      rw [Int64.ofNat_le_iff_le hn hb]
      omega
    rw [induceFrom_zero, if_neg hbeyond]
    exact ⟨.refl wf, n, .here (.inl ⟨hcount, rfl, rfl⟩)⟩
  | succ count ih =>
    have hbase := (baseProblem_spec wf hm hprop (show n < 2 ^ 64 by omega)).1
    have hsolve := solve_baseProblem wf hm hprop (show n < 2 ^ 64 by omega)
    have hrefutes := @extract_refutes _ s m prop wf hm hprop n hn
    have hm' := hm.of_le wf.encoding hbase.grows
    have hprop' := hprop.of_le wf.encoding hbase.grows
    have hstep := (stepProblem_spec hbase.wf hm' hprop' hn).1
    have hkept := keptAfter_of_solve_stepProblem hbase.wf hm' hprop' hn
    have hsolve' := @solve_stepProblem _ m prop hbase.wf hm' hprop' n
    rw [keptAfter_of_leads wf hm hprop hbase] at hkept hsolve'
    rw [induceFrom_succ]
    rw [← Int64.toUInt64_ofNat'] at hbase hsolve hrefutes hstep hkept hsolve' hm' hprop'
    cases hroot : (baseProblem m prop (Int64.ofNat n).toUInt64 s).2.encoding.graph.solve
        (baseProblem m prop (Int64.ofNat n).toUInt64 s).1 with
    | some ρ =>
      dsimp only
      split
      next hmax =>
        rw [ofNat_eq_maxValue_iff hn] at hmax
        exact ⟨hbase, n, .here (.inr (.inr ⟨by omega, by omega, nofun, rfl⟩))⟩
      next hmax =>
        rw [ofNat_eq_maxValue_iff hn] at hmax
        obtain ⟨V, hV⟩ := hrefutes hroot
        exact ⟨hbase.trans (extract_leads hbase.wf ρ (.ofNat n) .none), n,
          .here (.inr (.inl ⟨by omega, rfl, rfl, .inr ⟨rfl, by omega, _, V, rfl, hV⟩⟩))⟩
    | none =>
      have hholds := hsolve.1 hroot
      dsimp only
      cases hroot' : (stepProblem m prop (.ofNat n)
          (baseProblem m prop (Int64.ofNat n).toUInt64 s).2).2.encoding.graph.solve
          (stepProblem m prop (.ofNat n) (baseProblem m prop (Int64.ofNat n).toUInt64 s).2).1 with
      | none =>
        exact ⟨hbase.trans hstep, n,
          .here (.inr (.inl ⟨by omega, rfl, rfl, .inl ⟨rfl, hholds, hkept hroot'⟩⟩))⟩
      | some ρ =>
        have hleads := hbase.trans hstep
        obtain hlt | hmax : n + 1 < 2 ^ 63 ∨ n + 1 = 2 ^ 63 := by omega
        · have hopen : ¬ m.KeptAfter s.encoding prop n := fun hkept => by
            rw [(hsolve' hlt).2 hkept] at hroot'
            cases hroot'
          obtain ⟨hrest, j, hj⟩ := ih (n := n + 1) (by omega) hlt hleads.wf
            (hm.of_le wf.encoding hleads.grows) (hprop.of_le wf.encoding hleads.grows)
          rw [Int64.ofNat_add] at hrest hj
          exact ⟨hleads.trans hrest, j, (hj.of_leads wf hm hprop hleads).round hholds hopen⟩
        · -- the next length is the smallest word
          obtain rfl : count = 0 := by omega
          dsimp only
          rw [induceFrom_zero, if_pos (add_one_le_of_largest hmax _)]
          exact ⟨hleads, n, .here (.inr (.inr ⟨by omega, by omega, nofun, rfl⟩))⟩

theorem checkProperty_apply (prop : Lit) (s : Encoder) :
    checkProperty prop s =
      (if s.encoding.isStateExpr prop then none else some (.argument .notOverState), s) := by
  change (if s.encoding.isStateExpr prop then pure none
    else pure (some (.argument .notOverState)) : EncodeM (Option EncodeError)) s = _
  split <;> rfl

theorem checkTemporalInduction_eq [Solver] (m : Machine) (prop : Lit) (bound : Int64)
    (s : Encoder) :
    checkTemporalInduction m prop bound s =
      if bound < 0 then (.failure 0 (.argument (.negativeBound bound)), s)
      else if s.encoding.isStateExpr prop then
        induceFrom m prop bound (bound.toInt + 1).toNat 0 s
      else (.failure 0 (.argument .notOverState), s) := by
  unfold checkTemporalInduction
  split
  · rfl
  · rw [bind_apply, checkProperty_apply]
    split <;> rfl

theorem checkInduction_eq [Solver] (m : Machine) (prop : Lit) (s : Encoder) :
    checkInduction m prop s =
      if s.encoding.isStateExpr prop then
        match (baseCase m prop s).2.encoding.graph.solve [(baseCase m prop s).1.not] with
        | some ρ =>
          let t := extract ρ 0 .none (baseCase m prop s).2
          ({ outcome := .counterexample, bound := 0, trace? := t.1 }, t.2)
        | none =>
          let step := inductiveStep m prop (baseCase m prop s).2
          match step.2.encoding.graph.solve [step.1.not] with
          | none => ({ outcome := .proved, bound := 1 }, step.2)
          | some _ => ({ outcome := .unknown, bound := 1 }, step.2)
      else (.failure 0 (.argument .notOverState), s) := by
  rw [checkInduction, bind_apply, checkProperty_apply]
  split
  · dsimp only
    rw [bind_apply, bind_apply, solve_apply]
    cases (baseCase m prop s).2.encoding.graph.solve [(baseCase m prop s).1.not] with
    | some ρ =>
      dsimp only
      rw [bind_apply]
      rfl
    | none =>
      dsimp only
      rw [bind_apply, bind_apply, solve_apply]
      generalize inductiveStep m prop (baseCase m prop s).2 = step
      cases step.2.encoding.graph.solve [step.1.not] with
      | some ρ => rfl
      | none => rfl
  · rfl

section

variable {s : Encoder} {m : Machine} {prop : Lit} (wf : s.WellFormed) (hm : m.Over s.encoding)

include wf hm

theorem baseCase_makes (hprop : s.encoding.Current prop) :
    s.Makes (baseCase m prop s) (fun V => !decide (m.IsPath s.encoding V.word 0) ||
      s.encoding.holds prop (V.word 0) (V.word 0)) := by
  have hinitial := Makes.of_builds wf (Machine.path_builds wf.encoding hm 0)
  have hholds := Makes.of_builds hinitial.leads.wf (instantiate_current hinitial.leads.wf.encoding
    (hprop.of_le wf.encoding hinitial.leads.grows) 0)
  have hto := hinitial.leads.trans hholds.leads
  have himplies := Makes.join @Graph.implies_computes hto.wf
    (hholds.leads.denotes hinitial.leads.wf hinitial.denotes) hholds.denotes
  refine (himplies.after hto).congr fun V => ?_
  rw [hprop.untimed.holds_of_le wf.encoding hinitial.leads.grows]
  rfl

theorem inductiveStep_makes (hprop : s.encoding.Current prop) :
    s.Makes (inductiveStep m prop s) (fun V =>
      !(s.encoding.holds prop (V.word 0) (V.word 0) && decide (m.Steps s.encoding V.word 0 1)) ||
        s.encoding.holds prop (V.word 1) (V.word 1)) := by
  have hbefore := Makes.of_builds wf (instantiate_current wf.encoding hprop 0)
  have hafter := Makes.of_builds hbefore.leads.wf (instantiate_current hbefore.leads.wf.encoding
    (hprop.of_le wf.encoding hbefore.leads.grows) 1)
  have hto := hbefore.leads.trans hafter.leads
  have hstep := Makes.of_builds hto.wf (Machine.unroll_builds hto.wf.encoding
    (hm.of_le wf.encoding hto.grows) 0 1)
  have hlater := hafter.leads.trans hstep.leads
  have hpremise := Makes.join Graph.and_computes hstep.leads.wf
    (hlater.denotes hbefore.leads.wf hbefore.denotes) hstep.denotes
  have hto' := (hto.trans hstep.leads).trans hpremise.leads
  have himplies := Makes.join @Graph.implies_computes hto'.wf hpremise.denotes
    ((hstep.leads.trans hpremise.leads).denotes hto.wf hafter.denotes)
  refine (himplies.after hto').congr fun V => ?_
  simp only [hprop.untimed.holds_of_le wf.encoding hbefore.leads.grows,
    hm.steps_iff wf.encoding hto.grows]
  rfl

theorem checkInduction_leads [Solver] (hmem : prop ∈ s.encoding.graph) :
    s.Leads (checkInduction m prop s).2 := by
  rw [checkInduction_eq]
  split
  · rename_i hstate
    have hprop := current_of_isStateExpr wf.encoding hstate hmem
    have hbase := (baseCase_makes wf hm hprop).leads
    cases (baseCase m prop s).2.encoding.graph.solve [(baseCase m prop s).1.not] with
    | some ρ => exact hbase.trans (extract_leads hbase.wf ρ 0 .none)
    | none =>
      dsimp only
      have hstep := hbase.trans (inductiveStep_makes hbase.wf (hm.of_le wf.encoding hbase.grows)
        (hprop.of_le wf.encoding hbase.grows)).leads
      generalize inductiveStep m prop (baseCase m prop s).2 = step at hstep
      cases step.2.encoding.graph.solve [step.1.not] with
      | some ρ => exact hstep
      | none => exact hstep
  · exact .refl wf

theorem checkTemporalInduction_settles [Solver] (hmem : prop ∈ s.encoding.graph)
    (hstate : s.encoding.isStateExpr prop) {b : Nat} (hb : b < 2 ^ 63) :
    s.Leads (checkTemporalInduction m prop (.ofNat b) s).2 ∧
      ∃ j, Settles m s.encoding prop b 0 (checkTemporalInduction m prop (.ofNat b) s).1 j := by
  have hcount : ((Int64.ofNat b).toInt + 1).toNat = b + 1 := by
    rw [Int64.toInt_ofNat_of_lt hb]
    omega
  rw [checkTemporalInduction_eq, if_neg (of_decide_eq_false (decide_ofNat_neg hb)), if_pos hstate,
    hcount]
  exact induceFrom_spec hb (b + 1) (n := 0) (by omega) (by omega) wf hm
    (current_of_isStateExpr wf.encoding hstate hmem)

/-- A property that is proved by temporal induction holds at the end of the paths of the length it
is proved at, and is kept after as many steps. -/
theorem checkTemporalInduction_spec [Solver] (hmem : prop ∈ s.encoding.graph) (bound : Int64) :
    s.Leads (checkTemporalInduction m prop bound s).2 ∧
      ((checkTemporalInduction m prop bound s).1.outcome = .proved →
        s.encoding.isStateExpr prop ∧ ∃ k < 2 ^ 63,
          (checkTemporalInduction m prop bound s).1.bound = .ofNat k ∧
          (∀ j ≤ k, m.HoldsAt s.encoding prop j) ∧ m.KeptAfter s.encoding prop k) := by
  by_cases hneg : bound < 0
  · rw [checkTemporalInduction_eq, if_pos hneg]
    exact ⟨.refl wf, nofun⟩
  by_cases hstate : s.encoding.isStateExpr prop
  · obtain ⟨b, hb, rfl⟩ := exists_ofNat (Int64.not_lt.1 hneg)
    obtain ⟨hleads, k, -, hbefore, hanswer⟩ :=
      checkTemporalInduction_settles wf hm hmem hstate hb
    refine ⟨hleads, fun hproved => ⟨hstate, ?_⟩⟩
    rcases hanswer with ⟨-, -, hnone⟩ | ⟨hk, -, hbound, ⟨-, hholds, hkept⟩ | ⟨hrefuted, -⟩⟩ |
      ⟨-, -, -, hunknown⟩
    · exact nomatch hnone.symm.trans hproved
    · refine ⟨k, by omega, hbound, fun j hj => ?_, hkept⟩
      rcases Nat.lt_or_eq_of_le hj with hlt | rfl
      · exact (hbefore j (Nat.zero_le j) hlt).1
      · exact hholds
    · exact nomatch hrefuted.symm.trans hproved
    · exact nomatch hunknown.symm.trans hproved
  · rw [checkTemporalInduction_eq, if_neg hneg, if_neg hstate]
    exact ⟨.refl wf, nofun⟩

end

end Encoder

end Lasso
