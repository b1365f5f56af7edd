import Lasso.Proofs.Bounded.Fairness

/-! # Bounded semantics

A formula holds on a path without a loop as it stands, and on a path that loops if the state is
repeated, the loop is fair and the word that it describes satisfies the formula.  The encodings of
this have the values they should, and whether there is an encoding depends on the arguments and the
variables only.
-/

namespace Lasso

set_option autoImplicit false

namespace Encoder

open Encoding

variable {s : Encoder}

/-- Whether the arguments of an encoding on paths without a loop make sense. -/
def straightArgs (time bound offset : Int64) : Bool :=
  !decide (time < 0) && (!decide (bound < 0) && !decide (offset < 0))

/-- Whether the arguments of an encoding on paths with a loop make sense. -/
def loopingArgs (time bound : Int64) (loop : Loop) (offset : Int64) : Bool :=
  straightArgs time bound offset &&
    !(!loop.isSingle || decide (loop.word < 0) || decide (loop.word > bound) ||
      (decide (bound > 0) && loop.word == bound))

theorem failing_meets {c : Prop} [Decidable c] {e : EncodeError} {body : EncodeM Encoded}
    {keeps : Key → Prop} {ok : (Expr → Bool) → Bool} {φ : Atoms → View → Bool}
    (h : ¬ c → Meets body keeps ok φ) :
    Meets (if c then return .fail e else body) keeps (fun acc => !decide c && ok acc) φ := by
  by_cases hc : c
  · rw [if_pos hc]
    exact (fail_meets e).congr (fun _ => by simp [hc]) fun _ _ => rfl
  · rw [if_neg hc]
    exact (h hc).congr (fun _ => by simp [hc]) fun _ _ => rfl

theorem straight_meets (f : Formula) (time bound offset : Int64) :
    Meets (straight f time bound offset) (fun _ => False)
      (fun acc => straightArgs time bound offset && straightOk acc bound f time)
      (fun p V => straightValue (p.onPath offset V) bound f time) := by
  refine (failing_meets fun _ => failing_meets fun _ => failing_meets fun _ =>
    (encodeStraight_meets f time).mono nofun).congr (fun acc => ?_) fun _ _ => rfl
  simp only [straightArgs, Bool.and_assoc]

theorem looping_meets (f : Formula) (time bound : Int64) (loop : Loop) (offset : Int64) :
    Meets (looping f time bound loop offset) (fun _ => False)
      (fun acc => loopingArgs time bound loop offset && loopingOk acc bound loop f time)
      (fun p V => loopingValue (p.onPath offset V) bound loop f time) := by
  refine (failing_meets fun _ => failing_meets fun _ => failing_meets fun _ =>
    failing_meets fun h => (encodeLooping_meets ?_ f time).mono nofun).congr
    (fun acc => ?_) fun _ _ => rfl
  · rintro rfl
    exact h rfl
  · simp only [loopingArgs, straightArgs, Bool.and_assoc, Bool.decide_eq_true]

section

variable (m : Machine) (f : Formula) (bound offset : Int64) (fair : Bool)

def onStraightOk (acc : Expr → Bool) : Bool :=
  (fair && !m.fairness.isEmpty) || (straightArgs 0 bound offset && straightOk acc bound f 0)

def onStraightValue (p : Atoms) (V : View) : Bool :=
  !(fair && !m.fairness.isEmpty) && straightValue (p.onPath offset V) bound f 0

def onLoopOk (acc : Expr → Bool) (l : Loop) : Bool :=
  !(decide (offset + bound < 0) || decide (offset + l.word < 0) ||
      decide (offset + l.word > offset + bound)) &&
    ((!fair || fairOk (offset + bound) ⟨offset + l.word⟩) &&
      (loopingArgs 0 bound l offset && loopingOk acc bound l f 0))

def onLoopValue (e : Encoding) (l : Loop) (p : Atoms) (V : View) : Bool :=
  e.sameState (V.letter (offset + l.word).toUInt64) (V.letter (offset + bound).toUInt64) &&
    ((!fair || fairValue e m (offset + bound) ⟨offset + l.word⟩ V) &&
      loopingValue (p.onPath offset V) bound l f 0)

def onAllOk (acc : Expr → Bool) : Bool :=
  onStraightOk m f bound offset fair acc &&
    (times 0 bound).all fun l => onLoopOk f bound offset fair acc ⟨l⟩

def onAllValue (e : Encoding) (p : Atoms) (V : View) : Bool :=
  onStraightValue m f bound offset fair p V ||
    (times 0 bound).any fun l => onLoopValue m f bound offset fair e ⟨l⟩ p V

def onPathsOk (acc : Expr → Bool) (l : Loop) : Bool :=
  if l.isAll then onAllOk m f bound offset fair acc
  else if l.isNone then onStraightOk m f bound offset fair acc
  else onLoopOk f bound offset fair acc (l.absolute bound)

def onPathsValue (e : Encoding) (l : Loop) (p : Atoms) (V : View) : Bool :=
  if l.isAll then onAllValue m f bound offset fair e p V
  else if l.isNone then onStraightValue m f bound offset fair p V
  else onLoopValue m f bound offset fair e (l.absolute bound) p V

variable {m} (wf : s.WellFormed) (hm : m.Over s.encoding)

include wf hm

theorem onStraight_encodes :
    s.Encodes (onStraight m f bound offset fair s) (fun _ => False)
      (onStraightOk m f bound offset fair s.accepts) (onStraightValue m f bound offset fair) := by
  unfold onStraight onStraightOk onStraightValue
  by_cases h : (fair && !m.fairness.isEmpty) = true
  · rw [if_pos h, h]
    have hnone : Loop.none.isNone = true := decide_eq_true rfl
    refine (fairnessConstraint_encodes wf hm bound .none).congr ?_ fun _ _ => ?_
    · rw [fairOk, hnone, Bool.true_or, Bool.true_or]
    · rw [fairValue, hnone, Bool.not_true, Bool.false_and, Bool.false_and]
  · rw [if_neg h, Bool.eq_false_iff.2 h]
    refine (straight_meets f 0 bound offset s wf).congr ?_ fun _ _ => ?_
    · rw [Bool.false_or]
    · rw [Bool.not_false, Bool.true_and]

omit f bound offset in
theorem fairness_encodes (k : Int64) (l : Loop) {s' : Encoder} (hs : s.Leads s') :
    s'.Encodes ((if fair then fairnessConstraint m k l else pure ⟨Graph.truth, none⟩ :
        EncodeM Encoded) s') (fun _ => False) (!fair || fairOk k l)
      (fun _ V => !fair || fairValue s.encoding m k l V) := by
  cases fair with
  | true =>
    refine (fairnessConstraint_encodes hs.wf (hm.of_le wf.encoding hs.grows) k l).congr rfl
      fun _ V => ?_
    rw [fairValue, fairValue, fairWithin_of_le wf.encoding hs.grows fun o ho =>
      hm.fairness o (Array.mem_toList_iff.1 ho)]
    rfl
  | false => exact Encodes.of_means (.refl hs.wf) (means_truth hs.wf)

variable (m) in
omit wf hm in
theorem onLoop_eq (l : Loop) :
    onLoop m f bound l offset fair =
      (loopCondition (offset + bound) (offset + l.word) >>= fun returns =>
        if returns.failed then return returns else
          (if fair then fairnessConstraint m (offset + bound) ⟨offset + l.word⟩
            else pure ⟨Graph.truth, none⟩) >>= fun fairly =>
          if fairly.failed then return fairly else
            looping f 0 bound l offset >>= fun holds =>
            if holds.failed then return holds else do
              let inner ← onGraph (Graph.and fairly.expr holds.expr)
              return ⟨← onGraph (Graph.and returns.expr inner), none⟩) := by
  cases fair <;> rfl

theorem onLoop_encodes (l : Loop) :
    s.Encodes (onLoop m f bound l offset fair s) (fun _ => False)
      (onLoopOk f bound offset fair s.accepts l)
      (onLoopValue m f bound offset fair s.encoding l) := by
  rw [onLoop_eq]
  have hreturns := loopCondition_encodes wf (offset + bound) (offset + l.word)
  refine hreturns.bind fun hr => ?_
  have hfairly := fairness_encodes fair wf hm (offset + bound) ⟨offset + l.word⟩ hreturns.evolves
  refine hfairly.bind fun hf => ?_
  have hleads := hreturns.evolves.trans hfairly.evolves
  have hholds := (looping_meets f 0 bound l offset).leads hleads
  rw [← Bool.and_true (loopingArgs 0 bound l offset && loopingOk s.accepts bound l f 0)]
  refine hholds.bind fun hh => ?_
  have hf' := hholds.evolves.means hfairly.evolves.wf hf
  have hr' := (hfairly.evolves.trans hholds.evolves).means hreturns.evolves.wf hr
  obtain ⟨hev, -⟩ := onGraph_evolves Graph.and_computes hholds.evolves.wf hf'.mem hh.mem
    (fun _ => False)
  have hinner := onGraph_means Graph.and_computes hholds.evolves.wf hf' hh
  exact (Encodes.join Graph.and_computes hev.wf (hev.means hholds.evolves.wf hr') hinner).after hev

theorem onLoopValue_of_leads {s' : Encoder} (hs : s.Leads s') (l : Loop) (p : Atoms) (V : View) :
    onLoopValue m f bound offset fair s'.encoding l p V =
      onLoopValue m f bound offset fair s.encoding l p V := by
  unfold onLoopValue fairValue sameState stateVariables
  rw [hs.vars, fairWithin_of_le wf.encoding hs.grows fun o ho =>
    hm.fairness o (Array.mem_toList_iff.1 ho)]

theorem onLoop_encodes_of_leads {s' : Encoder} (hs : s.Leads s') (l : Loop) :
    s'.Encodes (onLoop m f bound l offset fair s') (fun _ => False)
      (onLoopOk f bound offset fair s.accepts l)
      (onLoopValue m f bound offset fair s.encoding l) := by
  refine (onLoop_encodes f bound offset fair hs.wf (hm.of_le wf.encoding hs.grows) l).congr ?_
    (onLoopValue_of_leads f bound offset fair wf hm hs l)
  rw [hs.accepts_eq]

theorem onAll_encodes :
    s.Encodes (onAll m f bound offset fair s) (fun _ => False)
      (onAllOk m f bound offset fair s.accepts) (onAllValue m f bound offset fair s.encoding) := by
  have hwithout := onStraight_encodes f bound offset fair wf hm
  refine hwithout.bind fun hw => ?_
  have hev := hwithout.evolves
  have hloops := joinTimes_encodes Graph.or_computes (times 0 bound) hev.wf
    (fun l _ s' hs => onLoop_encodes_of_leads f bound offset fair wf hm (hev.trans hs) ⟨l⟩)
    (means_falsity hev.wf)
  rw [← Bool.and_true (List.all _ _)]
  refine hloops.bind fun hl => ?_
  refine (Encodes.join Graph.or_computes hloops.evolves.wf (hloops.evolves.means hev.wf hw) hl).congr
    rfl fun p V => ?_
  rw [Graph.foldl_or, Bool.false_or]
  rfl

theorem onPaths_encodes (l : Loop) :
    s.Encodes (onPaths m f bound l offset fair s) (fun _ => False)
      (onPathsOk m f bound offset fair s.accepts l)
      (onPathsValue m f bound offset fair s.encoding l) := by
  unfold onPaths onPathsOk onPathsValue
  split
  · exact onAll_encodes f bound offset fair wf hm
  split
  · exact onStraight_encodes f bound offset fair wf hm
  · exact onLoop_encodes f bound offset fair wf hm _

end

section

variable {m : Machine} (f : Formula) (bound : Int64) (l : Loop) (wf : s.WellFormed)
  (hm : m.Over s.encoding)

/-- Whether a violation has an encoding. -/
def violationOk (m : Machine) (f : Formula) (bound : Int64) (l : Loop) (acc : Expr → Bool) : Bool :=
  (checkSemantics bound l 0).isOk && onPathsOk m f.negation bound 0 true acc l

/-- The value of a violation. -/
def violationValue (m : Machine) (f : Formula) (bound : Int64) (l : Loop) (e : Encoding)
    (p : Atoms) (V : View) : Bool :=
  onPathsValue m f.negation bound 0 true e l p V

include wf hm

omit wf hm in
theorem violation_eq (m : Machine) (s : Encoder) :
    violation m f bound l s =
      match checkSemantics bound l 0 with
      | .error e => (.fail (.argument e), s)
      | .ok () => onPaths m f.negation bound l 0 true (onTable (Table.negation f) s).2 := by
  unfold violation
  cases checkSemantics bound l 0 with
  | error e => rfl
  | ok _ =>
    dsimp only
    rw [bind_apply, onTable_eq, Table.negation_fst]

theorem violation_encodes :
    s.Encodes (violation m f bound l s) (fun _ => False) (violationOk m f bound l s.accepts)
      (violationValue m f bound l s.encoding) := by
  rw [violation_eq]
  unfold violationOk violationValue
  cases checkSemantics bound l 0 with
  | error e => exact Encodes.of_fail wf _
  | ok _ =>
    have hev := onTable_evolves wf (Table.negation f) (fun _ => False)
    have h := onPaths_encodes f.negation bound 0 true hev.wf (hm.of_le wf.encoding hev.grows) l
    rw [hev.accepts_eq] at h
    exact h.after hev

/-- The problem of a length is a path of the machine that violates the formula. -/
theorem problem_encodes :
    s.Encodes (problem m f bound l s) (fun _ => False) (violationOk m f bound l s.accepts)
      (fun p V => decide (m.IsPath s.encoding V.word bound.toUInt64.toNat) &&
        violationValue m f bound l s.encoding p V) := by
  have hviolated := violation_encodes f bound l wf hm
  rw [← Bool.and_true (violationOk m f bound l s.accepts)]
  refine hviolated.bind fun hv => ?_
  have hev := hviolated.evolves
  have hpath := Machine.path_builds hev.wf.encoding (hm.of_le wf.encoding hev.grows) bound.toUInt64
  have hev' := onEncoding_evolves hev.wf hpath (fun _ => False)
  have hmeans : (onEncoding (m.path bound.toUInt64) (violation m f bound l s).2).2.Means
      (onEncoding (m.path bound.toUInt64) (violation m f bound l s).2).1
      (fun _ V => decide (m.IsPath s.encoding V.word bound.toUInt64.toNat)) := fun p hp =>
    hpath.denotes.congr fun V => by
      simp only [hm.isPath_iff wf.encoding hev.grows]
  exact (Encodes.join Graph.and_computes hev'.wf hmeans (hev'.means hev.wf hv)).after hev'

end

end Encoder

end Lasso
