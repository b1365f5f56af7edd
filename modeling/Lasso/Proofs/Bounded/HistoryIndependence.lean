import Lasso.Proofs.Bounded.LoopEncoding
import Lasso.Proofs.Bounded.Recursion

/-! # Encodings do not depend on the history

An encoder stays faithful whatever it is used for, as long as no variables are declared.  So every
call returns what the recursion without a memory returns at that point, and the same call later
returns the same, in whatever order the calls are made, whatever is made elsewhere in between, and
however often everything is forgotten.
-/

namespace Lasso

set_option autoImplicit false

namespace Encoder

open Encoding

/-- From `s`, a result was obtained that leaves a faithful encoder behind. -/
structure Keeps {α : Type} (s : Encoder) (ok : α → Prop) (r : α × Encoder) : Prop where
  faithful : r.2.Faithful
  later : Later s.encoding r.2.encoding
  ok : ok r.1

section

variable {α β : Type} {s : Encoder}

theorem Keeps.refl (hs : s.Faithful) {ok : α → Prop} {a : α} (h : ok a) : Keeps s ok (a, s) :=
  ⟨hs, .refl hs.wf, h⟩

theorem Keeps.after {ok : α → Prop} {ok' : β → Prop} {r : α × Encoder} {r' : β × Encoder}
    (h : Keeps s ok r) (h' : Keeps r.2 ok' r') : Keeps s ok' r' :=
  ⟨h'.faithful, h.later.trans h'.later, h'.ok⟩

theorem Keeps.map {ok : α → Prop} {ok' : β → Prop} {r : α × Encoder} (h : Keeps s ok r) {b : β}
    (hb : ok' b) : Keeps s ok' (b, r.2) :=
  ⟨h.faithful, h.later, hb⟩

theorem Mirror.keeps {e : Encoding} {x y : EncodeM Encoded} (h : Mirror e x y) (hs : s.Faithful)
    (hle : e ≤ s.encoding) : Keeps s (fun r => Consistent r.error?) (x s) :=
  have hx := h s hs hle
  ⟨hx.faithful, hx.later, hx.there.consistent⟩

theorem onTable_keeps (hs : s.Faithful) (x : StateM Table α) :
    Keeps s (fun _ => True) (onTable x s) :=
  ⟨hs.of_later (.refl hs.wf) rfl, .refl hs.wf, trivial⟩

theorem onEncoding_keeps {c : StateM Encoding Lit} (hs : s.Faithful) (hc : Remakes c s.encoding) :
    Keeps s (fun _ => True) (onEncoding c s) :=
  have h := onEncoding_mirrors hs hc
  ⟨h.faithful, h.later, trivial⟩

theorem extract_keeps (hs : s.Faithful) (ρ : Assignment) (k : Int64) (l : Loop) :
    Keeps s (fun _ => True) (extract ρ k l s) := by
  have hasks := (frame_spec s.encoding.vars.toList (k.toInt + 1).toNat 0 hs.wf).1
  have hlater : Later s.encoding (extract ρ k l s).2.encoding :=
    ⟨hasks.wf, hasks.grows, hasks.vars⟩
  exact ⟨hs.of_later hlater rfl, hlater, trivial⟩

end

def errorOf : Except EncodeError Loop → Option EncodeError
  | .error err => some err
  | .ok _ => none

section

variable {e : Encoding} (wf : e.WellFormed) {m : Machine} (hm : m.Over e)

include wf hm

theorem attackAfresh_keeps [Solver] {s : Encoder} (hs : s.Faithful) (hle : e ≤ s.encoding)
    (k : Int64) (violated : Lit) (u : Unit) :
    Keeps s (fun _ => True) (attackAfresh m k violated u s) :=
  (onEncoding_keeps hs (m.path_remakes hs.wf (hm.of_le wf hle) k.toUInt64)).map trivial

theorem extend_keeps (count : Nat) {s : Encoder} (hs : s.Faithful) (hle : e ≤ s.encoding)
    (u : Unrolled) : Keeps s (fun _ => True) (extend m count u s) := by
  induction count generalizing s u with
  | zero => exact .refl hs trivial
  | succ count ih =>
    have hstep := onEncoding_keeps hs (m.unroll_remakes hs.wf (hm.of_le wf hle) u.length.toUInt64
      (u.length + 1).toUInt64)
    exact hstep.after (ih hstep.faithful (le_trans hle hstep.later.grows) _)

theorem attackOnward_keeps [Solver] {s : Encoder} (hs : s.Faithful) (hle : e ≤ s.encoding)
    (k : Int64) (violated : Lit) (u : Unrolled) :
    Keeps s (fun _ => True) (attackOnward m k violated u s) :=
  (extend_keeps wf hm _ hs hle u).map trivial

theorem firstLoop_keeps (f : Formula) (k : Int64) (ρ : Assignment) (ls : List Int64) {s : Encoder}
    (hs : s.Faithful) (hle : e ≤ s.encoding) :
    Keeps s (fun r => Consistent (errorOf r)) (firstLoop m f k ρ ls s) := by
  induction ls generalizing s with
  | nil => exact .refl hs consistent_none
  | cons t ls ih =>
    have hloop := (onLoop_mirror wf hm f k ⟨t⟩ 0 true).keeps hs hle
    rw [onLoopBy_remember] at hloop
    rw [firstLoop_cons]
    cases herror : (onLoop m f k ⟨t⟩ 0 true s).1.error? with
    | some err =>
      have herr : Consistent (some err) := herror ▸ hloop.ok
      exact hloop.map herr
    | none =>
      dsimp only
      split
      · exact hloop.map consistent_none
      · exact hloop.after (ih hloop.faithful (le_trans hle hloop.later.grows))

theorem witness_keeps (f : Formula) (k : Int64) (l : Loop) (ρ : Assignment) {s : Encoder}
    (hs : s.Faithful) (hle : e ≤ s.encoding) :
    Keeps s (fun r => Consistent (errorOf r)) (witness m f k l ρ s) := by
  rw [witness_eq]
  split
  · exact .refl hs consistent_none
  have htable := onTable_keeps hs (Table.negation f)
  have hstraight := htable.after
    ((onStraight_mirror wf hm f.negation k 0 true).keeps htable.faithful hle)
  rw [onStraightBy_remember] at hstraight
  dsimp only
  cases herror : (onStraight m f.negation k 0 true (onTable (Table.negation f) s).2).1.error? with
  | some err =>
    have herr : Consistent (some err) := herror ▸ hstraight.ok
    exact hstraight.map herr
  | none =>
    dsimp only
    split
    · exact hstraight.map consistent_none
    · exact hstraight.after (firstLoop_keeps wf hm f.negation k ρ _ hstraight.faithful
        (le_trans hle hstraight.later.grows))

section

variable {σ : Type} {attack : Attack σ} (hattack : ∀ {s : Encoder}, s.Faithful → e ≤ s.encoding →
  ∀ (k : Int64) (violated : Lit) (u : σ), Keeps s (fun _ => True) (attack k violated u s))

include hattack

theorem searchFrom_keeps (f : Formula) (bound : Int64) (l : Loop) (count : Nat) (k : Int64) (u : σ)
    {s : Encoder} (hs : s.Faithful) (hle : e ≤ s.encoding) :
    Keeps s (fun r => Consistent r.error?) (searchFrom m attack f bound l count k u s) := by
  induction count generalizing k u s with
  | zero =>
    rw [searchFrom]
    split
    · exact .refl hs (consistent_argument _)
    · exact .refl hs consistent_none
  | succ count ih =>
    have hviolated := (violation_mirror wf hm f k l).keeps hs hle
    rw [violationBy_remember] at hviolated
    rw [searchFrom_succ]
    split
    · exact ih (k + 1) u hs hle
    cases herror : (violation m f k l s).1.error? with
    | some err =>
      have herr : Consistent (some err) := herror ▸ hviolated.ok
      exact hviolated.map herr
    | none =>
      have hanswer := hviolated.after (hattack hviolated.faithful
        (le_trans hle hviolated.later.grows) k (violation m f k l s).1.expr u)
      dsimp only
      generalize attack k (violation m f k l s).1.expr u (violation m f k l s).2 = a at hanswer
      have hle' := le_trans hle hanswer.later.grows
      cases a.1.1 with
      | none => exact hanswer.after (ih (k + 1) _ hanswer.faithful hle')
      | some ρ =>
        have hwitness := witness_keeps wf hm f k l ρ hanswer.faithful hle'
        dsimp only
        cases hloop : (witness m f k l ρ a.2).1 with
        | error err =>
          have herr := hwitness.ok
          rw [hloop] at herr
          exact hanswer.after (hwitness.map herr)
        | ok lb =>
          dsimp only
          split
          · exact hanswer.after (hwitness.map (consistent_argument _))
          · exact hanswer.after (hwitness.after
              ((extract_keeps hwitness.faithful ρ k lb).map consistent_none))

theorem search_keeps (start : σ) (f : Formula) (bound : Int64) (l : Loop) (exactly : Bool)
    {s : Encoder} (hs : s.Faithful) (hle : e ≤ s.encoding) :
    Keeps s (fun r => Consistent r.error?) (search m attack start f bound l exactly s) := by
  unfold search
  cases l.check bound with
  | error err => exact .refl hs (consistent_argument err)
  | ok _ =>
    dsimp only
    split
    · refine .refl hs fun key hkey => ?_
      cases hkey
    split
    · exact searchFrom_keeps wf hm hattack f bound l 1 bound start hs hle
    · exact searchFrom_keeps wf hm hattack f bound l _ 0 start hs hle

end

theorem check_keeps [Solver] (f : Formula) (bound : Int64) (l : Loop) (exactly : Bool) {s : Encoder}
    (hs : s.Faithful) (hle : e ≤ s.encoding) :
    Keeps s (fun r => Consistent r.error?) (check m f bound l exactly s) :=
  search_keeps wf hm (attackAfresh_keeps wf hm) () f bound l exactly hs hle

theorem checkIncremental_keeps [Solver] (f : Formula) (bound : Int64) (l : Loop) (exactly : Bool)
    {s : Encoder} (hs : s.Faithful) (hle : e ≤ s.encoding) :
    Keeps s (fun r => Consistent r.error?) (checkIncremental m f bound l exactly s) := by
  have hpath := onEncoding_keeps hs (m.path_remakes hs.wf (hm.of_le wf hle) 0)
  exact hpath.after (search_keeps wf hm (attackOnward_keeps wf hm) _ f bound l exactly
    hpath.faithful (le_trans hle hpath.later.grows))

end

theorem onEncoding_cache {α : Type} (c : StateM Encoding α) (s : Encoder) :
    (onEncoding c s).2.cache = s.cache := rfl

theorem differsFrom_cache (time : UInt64) (count : Nat) (later : UInt64) (result : Lit)
    (s : Encoder) : (differsFrom time count later result s).2.cache = s.cache := by
  induction count generalizing later result s with
  | zero => rfl
  | succ count ih => exact ih _ _ _

theorem differ_cache (count : Nat) (time : UInt64) (result : Lit) (s : Encoder) :
    (differ count time result s).2.cache = s.cache := by
  induction count generalizing time result s with
  | zero => rfl
  | succ count ih => exact (ih _ _ _).trans (differsFrom_cache _ _ _ _ _)

theorem induceFrom_cache [Solver] (m : Machine) (prop : Lit) (bound : Int64) (count : Nat)
    (k : Int64) (s : Encoder) : (induceFrom m prop bound count k s).2.cache = s.cache := by
  induction count generalizing k s with
  | zero => rw [induceFrom_zero]
  | succ count ih =>
    have hstep : (stepProblem m prop k (baseProblem m prop k.toUInt64 s).2).2.cache = s.cache :=
      differ_cache _ _ _ _
    rw [induceFrom_succ]
    dsimp only
    generalize stepProblem m prop k (baseProblem m prop k.toUInt64 s).2 = step at hstep
    split
    · split <;> rfl
    split
    · exact hstep
    · exact (ih _ _).trans hstep

theorem checkTemporalInduction_cache [Solver] (m : Machine) (prop : Lit) (bound : Int64)
    (s : Encoder) : (checkTemporalInduction m prop bound s).2.cache = s.cache := by
  rw [checkTemporalInduction_eq]
  split
  · rfl
  split
  · exact induceFrom_cache m prop bound _ 0 s
  · rfl

theorem checkInduction_cache [Solver] (m : Machine) (prop : Lit) (s : Encoder) :
    (checkInduction m prop s).2.cache = s.cache := by
  have hbase : (baseCase m prop s).2.cache = s.cache := rfl
  have hstep : (inductiveStep m prop (baseCase m prop s).2).2.cache = s.cache := by
    simp only [inductiveStep, bind_apply, onGraph, onEncoding_cache, hbase]
  rw [checkInduction_eq]
  generalize baseCase m prop s = base at hbase hstep
  dsimp only
  generalize inductiveStep m prop base.2 = step at hstep
  split
  · cases base.2.encoding.graph.solve [base.1.not] with
    | some ρ => exact hbase
    | none =>
      cases step.2.encoding.graph.solve [step.1.not] with
      | some ρ => exact hstep
      | none => exact hstep
  · rfl

/-- The calls that return an encoding. -/
inductive Call where
  | straight (f : Formula) (time bound offset : Int64)
  | looping (f : Formula) (time bound : Int64) (l : Loop) (offset : Int64)
  | semantics (f : Formula) (bound : Int64) (l : Loop) (offset : Int64) (fair : Bool)
  | violation (f : Formula) (bound : Int64) (l : Loop)
  | problem (f : Formula) (bound : Int64) (l : Loop)
  | loopCondition (source target : Int64)
  | fairnessConstraint (bound : Int64) (l : Loop)

namespace Call

def run (m : Machine) : Call → EncodeM Encoded
  | .straight f time bound offset => Encoder.straight f time bound offset
  | .looping f time bound l offset => Encoder.looping f time bound l offset
  | .semantics f bound l offset fair => Encoder.semantics m f bound l offset fair
  | .violation f bound l => Encoder.violation m f bound l
  | .problem f bound l => Encoder.problem m f bound l
  | .loopCondition source target => Encoder.loopCondition source target
  | .fairnessConstraint bound l => Encoder.fairnessConstraint m bound l

/-- A call on an encoder, given what becomes of encodings. -/
def runBy (keep : Memory) (m : Machine) : Call → EncodeM Encoded
  | .straight f time bound offset => straightBy keep f time bound offset
  | .looping f time bound l offset => loopingBy keep f time bound l offset
  | .semantics f bound l offset fair => semanticsBy keep m f bound l offset fair
  | .violation f bound l => violationBy keep m f bound l
  | .problem f bound l => problemBy keep m f bound l
  | .loopCondition source target => Encoder.loopCondition source target
  | .fairnessConstraint bound l => Encoder.fairnessConstraint m bound l

theorem runBy_remember (m : Machine) (c : Call) : c.runBy remember m = c.run m := by
  cases c with
  | straight f time bound offset => exact straightBy_remember f time bound offset
  | looping f time bound l offset => exact loopingBy_remember f time bound l offset
  | semantics f bound l offset fair => exact semanticsBy_remember m f bound l offset fair
  | violation f bound l => exact violationBy_remember m f bound l
  | problem f bound l => exact problemBy_remember m f bound l
  | loopCondition source target => rfl
  | fairnessConstraint bound l => rfl

theorem mirror {e : Encoding} (wf : e.WellFormed) {m : Machine} (hm : m.Over e) (c : Call) :
    Mirror e (c.run m) (c.runBy forget m) := by
  rw [← runBy_remember]
  cases c with
  | straight f time bound offset => exact straight_mirror bound offset f time
  | looping f time bound l offset => exact looping_mirror bound offset f time l
  | semantics f bound l offset fair => exact semantics_mirror wf hm f bound l offset fair
  | violation f bound l => exact violation_mirror wf hm f bound l
  | problem f bound l => exact problem_mirror wf hm f bound l
  | loopCondition source target => exact loopCondition_mirror source target
  | fairnessConstraint bound l => exact fairnessConstraint_mirror wf hm bound l

end Call

theorem Call.use [Solver] (m : Machine) (s : Encoder) (c : Call) : Use m s (c.run m s).2 := by
  cases c with
  | straight f time bound offset => exact .straight f time bound offset
  | looping f time bound l offset => exact .looping f time bound l offset
  | semantics f bound l offset fair => exact .semantics f bound l offset fair
  | violation f bound l => exact .violation f bound l
  | problem f bound l => exact .problem f bound l
  | loopCondition source target => exact .loopCondition source target
  | fairnessConstraint bound l => exact .fairnessConstraint bound l

theorem vars_eq_of_le {e e' e'' : Encoding} (h : e ≤ e') (h' : e' ≤ e'')
    (hvars : e''.vars = e.vars) : e'.vars = e.vars := by
  refine Array.ext_getElem? fun i => ?_
  cases hi : e'.vars[i]? with
  | some x => exact (hvars ▸ h'.vars i x hi).symm
  | none =>
    cases hi' : e.vars[i]? with
    | none => rfl
    | some x => exact hi.symm.trans (h.vars i x hi')

/-- One step in the life of an encoder: it is used, or something is made elsewhere with the same
nodes and variables. -/
inductive Step [Solver] (m : Machine) (s : Encoder) : Encoder → Prop
  | use {s' : Encoder} (h : Use m s s') : Step m s s'
  | elsewhere {e : Encoding} (wf : e.WellFormed) (h : s.encoding ≤ e) :
      Step m s { s with encoding := e }

/-- Any number of steps. -/
abbrev Steps [Solver] (m : Machine) : Encoder → Encoder → Prop := Relation.ReflTransGen (Step m)

section

variable {m : Machine} {s s' : Encoder}

theorem faithful_of_entries (wf : s.encoding.WellFormed) (h : s.cache.entries = {}) :
    s.Faithful := by
  have hnone : ∀ (key : Key) (l : Lit), s.cache.entries[key]? ≠ some l := by
    intro key l hl
    rw [h, Std.HashMap.getElem?_empty] at hl
    cases hl
  exact ⟨wf, fun key l hl => absurd hl (hnone key l), fun key l hl => absurd hl (hnone key l)⟩

theorem Use.faithful [Solver] (h : Use m s s') (wf : s.WellFormed) (hm : m.Over s.encoding)
    (hs : s.Faithful) (hvars : s'.encoding.vars = s.encoding.vars) : s'.Faithful := by
  obtain ⟨wf', hle⟩ := h.grows wf hm
  have hlater : Later s.encoding s'.encoding := ⟨wf'.encoding, hle, hvars⟩
  have hcall : ∀ c : Call, (c.run m s).2.Faithful := fun c =>
    (c.mirror hs.wf hm s hs (le_refl _)).faithful
  cases h with
  | straight f time bound offset => exact hcall (.straight f time bound offset)
  | looping f time bound l offset => exact hcall (.looping f time bound l offset)
  | semantics f bound l offset fair => exact hcall (.semantics f bound l offset fair)
  | violation f bound l => exact hcall (.violation f bound l)
  | problem f bound l => exact hcall (.problem f bound l)
  | loopCondition source target => exact hcall (.loopCondition source target)
  | fairnessConstraint bound l => exact hcall (.fairnessConstraint bound l)
  | check f bound l exactly =>
    exact (check_keeps hs.wf hm f bound l exactly hs (le_refl _)).faithful
  | checkIncremental f bound l exactly =>
    exact (checkIncremental_keeps hs.wf hm f bound l exactly hs (le_refl _)).faithful
  | checkInduction _ => exact hs.of_later hlater (congrArg _ (checkInduction_cache m _ s))
  | checkTemporalInduction _ bound =>
    exact hs.of_later hlater (congrArg _ (checkTemporalInduction_cache m _ bound s))
  | clear => exact faithful_of_entries hs.wf rfl
  | _ => exact hs.of_later hlater rfl

theorem Step.grows [Solver] (h : Step m s s') (wf : s.WellFormed) (hm : m.Over s.encoding) :
    s'.WellFormed ∧ s.encoding ≤ s'.encoding := by
  cases h with
  | use h => exact h.grows wf hm
  | elsewhere wfe hle => exact ⟨wf.grow wfe hle, hle⟩

theorem Step.faithful [Solver] (h : Step m s s') (wf : s.WellFormed) (hm : m.Over s.encoding)
    (hs : s.Faithful) (hvars : s'.encoding.vars = s.encoding.vars) : s'.Faithful := by
  cases h with
  | use h => exact h.faithful wf hm hs hvars
  | elsewhere wfe hle => exact hs.of_later ⟨wfe, hle, hvars⟩ rfl

theorem Steps.grows [Solver] (h : Steps m s s') (wf : s.WellFormed) (hm : m.Over s.encoding) :
    s'.WellFormed ∧ s.encoding ≤ s'.encoding := by
  induction h with
  | refl => exact ⟨wf, le_refl _⟩
  | tail _ hstep ih =>
    obtain ⟨wf', hle⟩ := hstep.grows ih.1 (hm.of_le wf.encoding ih.2)
    exact ⟨wf', le_trans ih.2 hle⟩

theorem Steps.faithful [Solver] (h : Steps m s s') (wf : s.WellFormed) (hm : m.Over s.encoding)
    (hs : s.Faithful) (hvars : s'.encoding.vars = s.encoding.vars) :
    s'.Faithful ∧ Later s.encoding s'.encoding := by
  obtain ⟨wf', hle⟩ := h.grows wf hm
  refine ⟨?_, wf'.encoding, hle, hvars⟩
  clear wf' hle
  induction h with
  | refl => exact hs
  | tail hsteps hstep ih =>
    obtain ⟨wf', hle⟩ := Steps.grows hsteps wf hm
    have hm' := hm.of_le wf.encoding hle
    have hvars' := vars_eq_of_le hle (hstep.grows wf' hm').2 hvars
    exact hstep.faithful wf' hm' (ih hvars') (hvars.trans hvars'.symm)

end

/-- Encodings do not depend on the history of an encoder.  As long as no variables are declared, a
call returns what the same recursion returns without a memory at that point, and makes the same
nodes; the same call returns the same at any later point; and neither calls nor checks ever find
what is remembered inconsistent. -/
theorem calls_ignore_history [Solver] {m : Machine} {e : Encoding} {table : Table} {s : Encoder}
    (hbuilt : m.Built e) (hsteps : Steps m (fresh e table) s) (hvars : s.encoding.vars = e.vars) :
    (∀ c : Call, Consistent (c.run m s).1.error? ∧
      c.run m = c.runBy remember m ∧
      (c.runBy forget m s).1 = (c.run m s).1 ∧
      (c.runBy forget m s).2.encoding = (c.run m s).2.encoding ∧
      ∀ s', Steps m (c.run m s).2 s' → s'.encoding.vars = e.vars →
        (c.run m s').1 = (c.run m s).1) ∧
    ∀ (f : Formula) (bound : Int64) (l : Loop) (exactly : Bool),
      Consistent (check m f bound l exactly s).1.error? ∧
      Consistent (checkIncremental m f bound l exactly s).1.error? := by
  obtain ⟨wf, hm⟩ := hbuilt.wellFormed
  have wfresh := wellFormed_of_entries (s := fresh e table) wf rfl
  obtain ⟨wfs, hle⟩ := hsteps.grows wfresh hm
  have hs := (hsteps.faithful wfresh hm (faithful_of_entries wf rfl) hvars).1
  refine ⟨fun c => ?_, fun f bound l exactly => ?_⟩
  · have hc := c.mirror wf hm s hs hle
    obtain ⟨hvalue, hencoding⟩ := hc.same s rfl
    refine ⟨hc.there.consistent, (c.runBy_remember m).symm, hvalue, hencoding, ?_⟩
    intro s' hsteps' hvars'
    have hle₁ := le_trans hle hc.later.grows
    obtain ⟨hs', hlater⟩ := hsteps'.faithful ((c.use m s).grows wfs (hm.of_le wf hle)).1
      (hm.of_le wf hle₁) hc.faithful (hvars'.trans (hc.later.vars.trans hvars).symm)
    -- the recursion returns at `s'` what it returned at `s`, and the call what the recursion does
    have hnow := (c.mirror wf hm s' hs' (le_trans hle₁ hlater.grows)).same s' rfl
    exact hnow.1.symm.trans (hc.again s' hlater).1
  · exact ⟨(check_keeps wf hm f bound l exactly hs hle).ok,
      (checkIncremental_keeps wf hm f bound l exactly hs hle).ok⟩

/-- Until on a looping path, encoded once more after another encoding and when all is forgotten. -/
theorem calls_ignore_history_until :
    let f : Formula := .binary .untl (.atom (.symbol () "p")) (.atom (.symbol () "q"))
    let c : Call := .looping f 0 3 ⟨1⟩ 2
    let s := fresh pairEncoding {}
    let r := c.run {} s
    let s' := (straight f 0 2 0 r.2).2.clear
    r.1.error? = none ∧ (c.runBy forget {} s).1 = r.1 ∧ (c.run {} s').1 = r.1 := by
  intro f c s r s'
  have wf := wellFormed_of_entries (s := s) built_pairEncoding.wellFormed.1 rfl
  have haccepts : ∀ x ∈ [(.symbol () "p" : Expr), .symbol () "q"],
      pairEncoding.accepts false x := by decide
  have hok : r.1.error? = none := looping_succeeds (f := f) (k := 3) (l := 1) (t := 0) (o := 2) wf
    rfl haccepts (by decide) (by decide) (by decide) (by decide)
  have hcall := (looping_meets f 0 3 ⟨1⟩ 2 s wf).evolves
  have hother := (straight_meets f 0 2 0 r.2 hcall.wf).evolves
  obtain ⟨-, -, hrecursion, -, hlater⟩ :=
    (calls_ignore_history built_pairEncoding (s := s) .refl rfl).1 c
  refine ⟨hok, hrecursion, hlater s' (.tail (.single (.use ?_)) (.use .clear)) ?_⟩
  · exact .straight f 0 2 0
  · exact hother.vars.trans hcall.vars

end Encoder

end Lasso
