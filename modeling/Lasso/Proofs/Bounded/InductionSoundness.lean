import Lasso.Proofs.Bounded.History

/-! # What temporal induction proves

A proof by temporal induction at a length says that no shorter path ends in a violation.  Longer
paths are cut where they repeat a state, which is not possible at the very start if the constraint
on first states mentions inputs.  So the proof is good for all paths if it is good for those that
are one step longer, and always if first states are a matter of the state.
-/

namespace Lasso

set_option autoImplicit false

namespace Encoder

open Encoding

/-- Some assignment makes a path of a length end in a violation. -/
def Refutable (m : Machine) (prop : Lit) (k : UInt64) (s : Encoder) : Prop :=
  ∃ ρ, ∀ l ∈ (baseProblem m prop k s).1,
    (baseProblem m prop k s).2.encoding.graph.eval ρ l = true

theorem refutable_iff [Solver] {s : Encoder} {m : Machine} {prop : Lit} (wf : s.WellFormed)
    (hm : m.Over s.encoding) (hprop : s.encoding.Current prop) (k : UInt64) :
    Refutable m prop k s ↔ ¬ m.HoldsAt s.encoding prop k.toNat := by
  have hsolve := solve_baseProblem wf hm hprop k.toNat_lt
  rw [UInt64.ofNat_toNat] at hsolve
  rw [← hsolve]
  constructor
  · rintro ⟨ρ, hρ⟩ hnone
    obtain ⟨l, hl, hfalse⟩ := Graph.exists_eval_eq_false_of_solve hnone ρ
    rw [hρ l hl] at hfalse
    cases hfalse
  · intro hsome
    obtain ⟨ρ, hρ⟩ := Option.ne_none_iff_exists'.1 hsome
    exact ⟨ρ, fun l hl => Graph.eval_of_solve hρ hl⟩

end Encoder

namespace Machine

/-- A machine with a bit and an input, where the bit is kept as long as the input is present and
both are there at first. -/
structure IsLatch (m : Machine) (e : Encoding) (bit : Lit) : Prop where
  mem : bit ∈ e.graph
  isStateExpr : e.isStateExpr bit
  holds : ∀ a b, e.holds bit a b = a 0
  sameState : ∀ a b, e.sameState a b = (a 0 == b 0)
  initial : ∀ a, m.Initial e a ↔ a 0 ∧ a 1
  allowed : ∀ a, m.Allowed e a
  moves : ∀ a b, m.Moves e a b ↔ (a 1 → b 0)

variable {m : Machine} {e : Encoding} {bit : Lit} (h : m.IsLatch e bit)

include h

theorem IsLatch.holdsAt_zero : m.HoldsAt e bit 0 := by
  rintro w ⟨hfirst, -, -⟩
  rw [h.holds]
  exact ((h.initial _).1 hfirst).1

theorem IsLatch.holdsAt_one : m.HoldsAt e bit 1 := by
  rintro w ⟨hfirst, -, hmoves⟩
  rw [h.holds]
  exact (h.moves _ _).1 (hmoves 0 (by decide)) ((h.initial _).1 hfirst).2

theorem IsLatch.keptAfter_one : m.KeptAfter e bit 1 := by
  intro w _ hall hdiff
  have hzero := hall 0 (by decide)
  have hone := hall 1 (by decide)
  have hne := hdiff 1 (by decide) 0 (by decide)
  rw [h.holds] at hzero hone
  rw [h.sameState, hzero, hone] at hne
  cases hne

/-- After the second step the input may be gone. -/
theorem IsLatch.not_holdsAt_two : ¬ m.HoldsAt e bit 2 := by
  intro hholds
  -- the values at the time of a step, by index of the variable
  let w : Nat → Letter := fun n i => if i = 0 then n < 2 else n < 1
  have hbit := hholds w ⟨(h.initial _).2 (by decide), fun j _ => h.allowed _, fun j hj => ?_⟩
  · rw [h.holds] at hbit
    exact absurd hbit (by decide)
  · rw [h.moves]
    intro hinput
    have hj : j < 1 := of_decide_eq_true hinput
    exact decide_eq_true (by omega)

end Machine

namespace Encoder

open Encoding

theorem latch_proved [Solver] {m : Machine} {bit : Lit} {s : Encoder} (wf : s.WellFormed)
    (hm : m.Over s.encoding) (h : m.IsLatch s.encoding bit) :
    (checkTemporalInduction m bit 1 s).1.outcome = .proved := by
  obtain ⟨-, j, -, hbefore, hanswer⟩ :=
    checkTemporalInduction_settles wf hm h.mem h.isStateExpr (b := 1) (by decide)
  rcases hanswer with ⟨rfl, -⟩ | ⟨hj, -, -, ⟨hproved, -⟩ | ⟨-, -, tr, V, -, hrefuted⟩⟩ | ⟨-, hmax, -⟩
  · exact absurd h.keptAfter_one (hbefore 1 (by decide) (by decide)).2
  · exact hproved
  · obtain rfl | rfl : j = 0 ∨ j = 1 := by omega
    · exact absurd h.holdsAt_zero hrefuted.not_holdsAt
    · exact absurd h.holdsAt_one hrefuted.not_holdsAt
  · exact absurd hmax (by decide)

def latchVariables : Encoding := (Encoding.declare true "a" (Encoding.declare false "y" ∅).2).2

theorem built_latchVariables : ({} : Machine).Built latchVariables :=
  (Machine.Built.empty.declare false "y").declare true "a"

def latchFirst : Expr := .list () [.symbol () "and", .symbol () "y", .symbol () "a"]

def latchStep : Expr :=
  .list () [.symbol () "->", .symbol () "a", .list () [.symbol () "next", .symbol () "y"]]

section

variable {e : Encoding} (wf : e.WellFormed) (hvars : e.vars = latchVariables.vars)

include wf hvars

theorem exists_latchStep : ∃ l, ((condition true latchStep).run e).1 = .ok l := by
  have hname : ∀ name, e.conditionName? name = latchVariables.conditionName? name := by
    intro name
    unfold conditionName? lookup?
    rw [hvars]
  obtain ⟨y, hy, hindex, hrole⟩ : ∃ y : Variable, latchVariables.conditionName? "y" =
      some y.current ∧ latchVariables.vars[y.index]? = some y ∧ y.isInput = false :=
    ⟨_, rfl, rfl, rfl⟩
  obtain ⟨a, ha⟩ : ∃ a, latchVariables.conditionName? "a" = some a := ⟨_, rfl⟩
  rw [← hvars] at hindex
  obtain ⟨l, hl⟩ := exists_condition_next wf ((hname "y").trans hy) hindex hrole () () ()
  have hargs : ∃ e', (conditions true [.symbol () "a",
      (.list () [.symbol () "next", .symbol () "y"] : Expr)]).run e = (.ok [a, l], e') := by
    rw [conditions_cons_eq, condition_symbol_eq, hname, ha]
    dsimp only
    rw [conditions_cons_eq]
    cases hnext : (condition true (.list () [.symbol () "next", .symbol () "y"] : Expr)).run e with
    | mk r e' =>
      rw [hnext] at hl
      obtain rfl : r = .ok l := hl
      exact ⟨_, rfl⟩
  obtain ⟨e', he'⟩ := hargs
  rw [latchStep, condition_list_eq, he']
  exact ⟨_, rfl⟩

end

theorem exists_isLatch_of {m : Machine} {e : Encoding} (hbuilt : m.Built e)
    (hvars : e.vars = latchVariables.vars) (hinitial : ∀ a, m.Initial e a ↔ a 0 ∧ a 1)
    (hallowed : ∀ a, m.Allowed e a) (hmoves : ∀ a b, m.Moves e a b ↔ (a 1 → b 0)) :
    ∃ (m : Machine) (e : Encoding) (bit : Lit), m.Built e ∧ m.IsLatch e bit := by
  have wf := hbuilt.wellFormed.1
  obtain ⟨y, hy, hstate⟩ : ∃ y : Variable, latchVariables.conditionName? "y" = some y.current ∧
      y ∈ latchVariables.stateVariables := ⟨_, rfl, List.mem_singleton.2 rfl⟩
  have hname : e.conditionName? "y" = some y.current := by
    rw [← hy]
    unfold conditionName? lookup?
    rw [hvars]
  have hvalue : ∀ a, e.nameValue a "y" = a 0 := by
    intro a
    unfold nameValue lookup?
    rw [hvars]
    rfl
  have hbit := conditionName?_denotes wf hname
  refine ⟨m, e, y.current, hbuilt, hbit.mem, isStateExpr_current wf ?_, fun a b => ?_,
    fun a b => ?_, hinitial, hallowed, hmoves⟩
  · rw [stateVariables, hvars]
    exact hstate
  · rw [hbit.holds_eq, hvalue]
    rfl
  · rw [Encoding.sameState, stateVariables, hvars]
    exact Bool.and_true _

theorem exists_isLatch : ∃ (m : Machine) (e : Encoding) (bit : Lit), m.Built e ∧ m.IsLatch e bit := by
  obtain ⟨wf, hm⟩ := built_latchVariables.wellFormed
  -- the constraint on first states
  obtain ⟨first, hfirst⟩ := exists_condition wf latchFirst (by decide)
  obtain ⟨hafter, -⟩ := condition_attempts wf false latchFirst
  have hinit := built_latchVariables.init hfirst
  have hinitial := Machine.addInit_initial_iff hafter.wf (hm.of_le wf hafter.grows)
    (condition_untimed wf hfirst).1
  simp only [(hafter.denotes first hfirst).holds_eq] at hinitial
  -- the constraint on steps
  obtain ⟨wf', hm'⟩ := hinit.wellFormed
  obtain ⟨step, hstep⟩ := exists_latchStep wf' hafter.vars
  obtain ⟨hafter', -⟩ := condition_attempts wf' true latchStep
  have hm'' := hm'.of_le wf' hafter'.grows
  have huntimed := (condition_untimed wf' hstep).1
  have hmoves := Machine.addTrans_moves_iff hafter'.wf hm'' huntimed
  simp only [(hafter'.denotes step hstep).holds_eq] at hmoves
  have htruth : ∀ (e : Encoding) (a b : Letter), e.holds Graph.truth a b = true := fun e a b =>
    Graph.eval_truth _ _
  refine exists_isLatch_of (hinit.trans hstep) (hafter'.vars.trans hafter.vars) (fun a => ?_)
    (fun a => htruth _ a a) fun a b => ?_
  · rw [Machine.addTrans_initial_iff hafter'.wf hm'' huntimed,
      hm'.initial_iff wf' hafter'.grows, hinitial]
    refine (and_iff_right (htruth _ a a)).trans ?_
    change (a 0 && (a 1 && true)) = true ↔ _
    rw [Bool.and_true, Bool.and_eq_true]
  · rw [hmoves]
    refine (and_iff_right (htruth _ a b)).trans ?_
    change Encoding.conditionValue _ a b latchStep = true ↔ _
    rw [conditionValue_of_vars_eq (e := latchVariables)]
    · change (!a 1 || b 0) = true ↔ _
      cases a 1 <;> simp
    · exact hafter.vars

/-- If a property is proved by temporal induction, whatever the encoder was used for before, then
no path up to the length of the proof ends in a violation.  No path of any length does if and only
if none of the next length does, and surely if the constraint on first states is one of states. -/
theorem proved_iff_not_refutable_next [Solver] {m : Machine} {e : Encoding} {table : Table}
    {s : Encoder} (hbuilt : m.Built e) (huses : Uses m (fresh e table) s) {prop : Lit}
    (hmem : prop ∈ s.encoding.graph) {bound : Int64}
    (hproved : (checkTemporalInduction m prop bound s).1.outcome = .proved) :
    let k := (checkTemporalInduction m prop bound s).1.bound
    (∀ n ≤ k.toUInt64, ¬ Refutable m prop n s) ∧
      ((∀ n, ¬ Refutable m prop n s) ↔ ¬ Refutable m prop (k + 1).toUInt64 s) ∧
      (s.encoding.isStateExpr m.init → ∀ n, ¬ Refutable m prop n s) := by
  intro k
  obtain ⟨wf, hm⟩ := huses.wellFormed hbuilt.wellFormed.1 hbuilt.wellFormed.2
  obtain ⟨hstate, j, hj, hk, hbase, hkept⟩ :=
    (checkTemporalInduction_spec wf hm hmem bound).2 hproved
  have hrefutable := refutable_iff wf hm (current_of_isStateExpr wf.encoding hstate hmem)
  have hall := Machine.holdsAt_of_keptAfter wf.encoding hbase hkept
  have hlength : k.toUInt64.toNat = j := by
    rw [show k = .ofNat j from hk, Int64.toUInt64_ofNat']
    exact UInt64.toNat_ofNat_of_lt' (show j < 2 ^ 64 by omega)
  have hnext : (k + 1).toUInt64.toNat = j + 1 := by
    have hsucc : Int64.ofNat j + 1 = .ofNat (j + 1) := (Int64.ofNat_add j 1).symm
    rw [show k = .ofNat j from hk, hsucc, Int64.toUInt64_ofNat']
    exact UInt64.toNat_ofNat_of_lt' (show j + 1 < 2 ^ 64 by omega)
  simp only [hrefutable, not_not, hnext]
  refine ⟨fun n hn => hbase _ ?_, ⟨fun h => ?_, fun h n => hall (.inr h) _⟩,
    fun hinit n => hall (.inl hinit) _⟩
  · rw [← hlength]
    exact UInt64.le_iff_toNat_le.1 hn
  · rw [← hnext]
    exact h _

/-- The property of a latch that is proved is that its bit is set. -/
theorem proved_iff_not_refutable_next_latch :
    ∃ (m : Machine) (e : Encoding) (bit : Lit), m.Built e ∧ bit ∈ e.graph ∧
      (checkTemporalInduction m bit 1 (fresh e {})).1.outcome = .proved ∧
      let k := (checkTemporalInduction m bit 1 (fresh e {})).1.bound
      (∀ n ≤ k.toUInt64, ¬ Refutable m bit n (fresh e {})) ∧
        ((∀ n, ¬ Refutable m bit n (fresh e {})) ↔
          ¬ Refutable m bit (k + 1).toUInt64 (fresh e {})) ∧
        (e.isStateExpr m.init → ∀ n, ¬ Refutable m bit n (fresh e {})) := by
  obtain ⟨m, e, bit, hbuilt, hlatch⟩ := exists_isLatch
  have wf := wellFormed_of_entries (s := fresh e {}) hbuilt.wellFormed.1 rfl
  have hproved := latch_proved wf hbuilt.wellFormed.2 hlatch
  exact ⟨m, e, bit, hbuilt, hlatch.mem, hproved,
    proved_iff_not_refutable_next hbuilt .refl hlatch.mem hproved⟩

/-- A path of length two of a latch ends with the bit reset, although the bit is proved to stay. -/
theorem exists_proved_and_refutable :
    ∃ (m : Machine) (e : Encoding) (bit : Lit), m.Built e ∧ bit ∈ e.graph ∧ e.isStateExpr bit ∧
      (checkTemporalInduction m bit 1 (fresh e {})).1.outcome = .proved ∧
      Refutable m bit 2 (fresh e {}) := by
  obtain ⟨m, e, bit, hbuilt, hlatch⟩ := exists_isLatch
  obtain ⟨wfe, hm⟩ := hbuilt.wellFormed
  have wf := wellFormed_of_entries (s := fresh e {}) wfe rfl
  have hbit := current_of_isStateExpr wfe hlatch.isStateExpr hlatch.mem
  exact ⟨m, e, bit, hbuilt, hlatch.mem, hlatch.isStateExpr, latch_proved wf hm hlatch,
    (refutable_iff wf hm hbit 2).2 hlatch.not_holdsAt_two⟩

end Encoder

end Lasso
