import Lasso.Proofs.Bounded.Mirror

/-! # Encodings are what the recursion returns

Every encoding that remembers mirrors the one that does not, by induction over the formula and the
time that is left.  So do the semantics of formulas and the problems that are made from them.
-/

namespace Lasso

set_option autoImplicit false

namespace Encoder

open Encoding

section

variable {e : Encoding} (bound offset : Int64)

theorem position_mirror {f : Formula} {time : Int64} {x y : EncodeM Encoded}
    (hkey : encodeStraightBy forget bound offset f time = positionBy forget f time bound offset y)
    (hbody : Mirror e x y) :
    Mirror e (positionBy remember f time bound offset x)
      (positionBy forget f time bound offset y) := by
  refine remember_mirror ((if_pos rfl).trans hkey) ?_
  exact ite_mirror (fun _ => falsity_mirror) fun _ => hbody

theorem encodeStraightBy_of_lt {f : Formula} {time : Int64} (h : time > bound) :
    encodeStraightBy forget bound offset f time = return ⟨Graph.falsity, none⟩ := by
  rw [encodeStraightBy.eq_def]
  cases f <;> exact if_pos h

theorem beyond_mirror (f : Formula) (time : Int64) :
    Mirror e (beyondBy remember bound offset f time) (beyondBy forget bound offset f time) := by
  refine ite_mirror (fun htime => remember_mirror ?_ falsity_mirror) fun _ => falsity_mirror
  exact (if_pos rfl).trans (encodeStraightBy_of_lt bound offset htime)

theorem later_mirror {f : Formula} {time : Int64}
    (hself : time < bound → Mirror e (encodeStraightBy remember bound offset f (time + 1))
      (encodeStraightBy forget bound offset f (time + 1))) :
    Mirror e
      (if _h : time < bound then encodeStraightBy remember bound offset f (time + 1)
        else beyondBy remember bound offset f (time + 1))
      (if _h : time < bound then encodeStraightBy forget bound offset f (time + 1)
        else beyondBy forget bound offset f (time + 1)) :=
  ite_mirror hself fun _ => beyond_mirror bound offset f (time + 1)

theorem encodeStraight_mirror (f : Formula) (time : Int64) :
    Mirror e (encodeStraightBy remember bound offset f time)
      (encodeStraightBy forget bound offset f time) := by
  -- operators that unfold into themselves one step later take an inner induction on the time left
  induction f generalizing time with
  | atom p =>
    rw [encodeStraightBy, encodeStraightBy]
    exact position_mirror bound offset (by rw [encodeStraightBy]) (proposition_mirror p _)
  | unary op f ih =>
    refine induction_later bound (fun time hself => ?_) time
    have hkey := encodeStraightBy.eq_def forget bound offset (.unary op f) time
    rw [encodeStraightBy.eq_def remember, hkey]
    refine position_mirror bound offset hkey ?_
    cases op with
    | not => exact (ih time).not
    | next => exact ih (time + 1)
    | globally => exact falsity_mirror
    | eventually =>
      exact pair_mirror Graph.or_repeatable (ih time)
        (later_mirror bound offset hself)
    | _ => exact fail_mirror (consistent_unsupported _)
  | binary op f g ihf ihg =>
    refine induction_later bound (fun time hself => ?_) time
    have hkey := encodeStraightBy.eq_def forget bound offset (.binary op f g) time
    rw [encodeStraightBy.eq_def remember, hkey]
    refine position_mirror bound offset hkey ?_
    cases op with
    | untl =>
      exact triple_mirror Graph.or_repeatable Graph.and_repeatable (ihg time) (ihf time)
        (later_mirror bound offset hself)
    | releases =>
      exact triple_mirror Graph.and_repeatable Graph.or_repeatable (ihg time) (ihf time)
        (later_mirror bound offset hself)
    | and => exact both_mirror Graph.and_repeatable (ihf time) (ihg time)
    | or => exact both_mirror Graph.or_repeatable (ihf time) (ihg time)
    | xor => exact both_mirror Graph.xor_repeatable (ihf time) (ihg time)
    | implies => exact both_mirror Graph.implies_repeatable (ihf time) (ihg time)
    | iff => exact both_mirror Graph.iff_repeatable (ihf time) (ihg time)
    | _ => exact fail_mirror (consistent_unsupported _)

theorem loopPosition_mirror {loop : Loop} (hloop : loop ≠ .none) {f : Formula} {time : Int64}
    {x y : EncodeM Encoded} (hkey : encodeLoopingBy forget bound loop offset f time =
      if bound = 0 ∨ time > bound then return ⟨Graph.falsity, none⟩ else y)
    (hbody : Mirror e x y) :
    Mirror e
      (remember ⟨f, time, bound, loop, offset⟩
        (if bound = 0 ∨ time > bound then return ⟨Graph.falsity, none⟩ else x))
      (if bound = 0 ∨ time > bound then return ⟨Graph.falsity, none⟩ else y) := by
  refine remember_mirror ((if_neg hloop).trans hkey) ?_
  exact ite_mirror (fun _ => falsity_mirror) fun _ => hbody

theorem encodeLooping_mirror {loop : Loop} (hloop : loop ≠ .none) (f : Formula) (time : Int64) :
    Mirror e (encodeLoopingBy remember bound loop offset f time)
      (encodeLoopingBy forget bound loop offset f time) := by
  induction f generalizing time with
  | atom p =>
    rw [encodeLoopingBy, encodeLoopingBy]
    exact loopPosition_mirror bound offset hloop (by rw [encodeLoopingBy]; rfl)
      (proposition_mirror p _)
  | unary op f ih =>
    have hkey := encodeLoopingBy.eq_def forget bound loop offset (.unary op f) time
    rw [encodeLoopingBy.eq_def remember, hkey]
    refine loopPosition_mirror bound offset hloop hkey ?_
    cases op with
    | not => exact (ih time).not
    | next => exact ih _
    | globally =>
      exact fun s hs hle => joinTimes_mirrors Graph.and_repeatable _ (fun t _ => ih t) hs hle
        hs.wf.graph.truth_mem
    | eventually =>
      exact fun s hs hle => joinTimes_mirrors Graph.or_repeatable _ (fun t _ => ih t) hs hle
        hs.wf.graph.falsity_mem
    | _ => exact fail_mirror (consistent_unsupported _)
  | binary op f g ihf ihg =>
    have hkey := encodeLoopingBy.eq_def forget bound loop offset (.binary op f g) time
    rw [encodeLoopingBy.eq_def remember, hkey]
    refine loopPosition_mirror bound offset hloop hkey ?_
    cases op with
    | untl =>
      exact fun s hs hle => unfoldTimes_mirrors Graph.or_repeatable Graph.and_repeatable _
        (fun t _ => ihg t) (fun t _ => ihf t) hs hle hs.wf.graph.falsity_mem
    | releases =>
      intro s hs hle
      have hlast := ihg (bound - 1) s hs hle
      refine hlast.bind_unless ?_
      exact unfoldTimes_mirrors Graph.and_repeatable Graph.or_repeatable _ (fun t _ => ihg t)
        (fun t _ => ihf t) hlast.faithful (le_trans hle hlast.later.grows) hlast.there.mem
    | and => exact both_mirror Graph.and_repeatable (ihf time) (ihg time)
    | or => exact both_mirror Graph.or_repeatable (ihf time) (ihg time)
    | xor => exact both_mirror Graph.xor_repeatable (ihf time) (ihg time)
    | implies => exact both_mirror Graph.implies_repeatable (ihf time) (ihg time)
    | iff => exact both_mirror Graph.iff_repeatable (ihf time) (ihg time)
    | _ => exact fail_mirror (consistent_unsupported _)

theorem straight_mirror (f : Formula) (time : Int64) :
    Mirror e (straightBy remember f time bound offset) (straightBy forget f time bound offset) :=
  refuse_mirror fun _ => refuse_mirror fun _ => refuse_mirror fun _ =>
    encodeStraight_mirror bound offset f time

theorem looping_mirror (f : Formula) (time : Int64) (l : Loop) :
    Mirror e (loopingBy remember f time bound l offset)
      (loopingBy forget f time bound l offset) := by
  refine refuse_mirror fun _ => refuse_mirror fun _ => refuse_mirror fun _ =>
    refuse_mirror fun hargs => encodeLooping_mirror bound offset ?_ f time
  -- the loop is a time, so its keys are not those of paths without a loop
  rintro rfl
  exact hargs rfl

end

theorem sameAt_remakes (source target : UInt64) (vs : List Variable) {e : Encoding}
    (wf : e.WellFormed) {result : Lit} (hresult : result ∈ e.graph) :
    Remakes (sameAt source target vs result) e := by
  induction vs generalizing e result with
  | nil => exact .pure wf hresult
  | cons v vs ih =>
    have hbefore := variableAt_remakes wf v.index target
    have hafter := variableAt_remakes hbefore.wf v.index source
    have hsame := join_remakes hafter.wf Graph.iff_repeatable (hafter.mem hbefore.there)
      hafter.there
    have hboth := and_remakes hsame.wf (hsame.mem (hafter.mem (hbefore.mem hresult))) hsame.there
    exact hbefore.bind (hafter.bind (hsame.bind (hboth.bind (ih hboth.wf hboth.there))))

theorem fairWithin_remakes (first last : UInt64) (obligations : List Lit) {e : Encoding}
    (wf : e.WellFormed) (hmem : ∀ l ∈ obligations, l ∈ e.graph) {result : Lit}
    (hresult : result ∈ e.graph) : Remakes (fairWithin first last obligations result) e := by
  induction obligations generalizing e result with
  | nil => exact .pure wf hresult
  | cons l ls ih =>
    have hholds := sometime_remakes wf (hmem l List.mem_cons_self) first last
    have hboth := and_remakes hholds.wf (hholds.mem hresult) hholds.there
    refine hholds.bind (hboth.bind (ih hboth.wf (fun k hk => ?_) hboth.there))
    exact hboth.mem (hholds.mem (hmem k (List.mem_cons_of_mem l hk)))

theorem made_mirrors {s : Encoder} (hs : s.Faithful) {c : StateM Encoding Lit}
    (hc : Remakes c s.encoding) :
    Mirrors Encoded.Sound (do return ⟨← onEncoding c, none⟩)
      (do return ⟨← onEncoding c, none⟩) s := by
  have h := onEncoding_mirrors hs hc
  exact h.bind (.pure h.faithful ⟨h.there, consistent_none⟩)

theorem loopCondition_mirror {e : Encoding} (source target : Int64) :
    Mirror e (loopCondition source target) (loopCondition source target) := by
  refine refuse_mirror fun _ s hs _ => ?_
  refine (made_mirrors hs (sameAt_remakes source.toUInt64 target.toUInt64 s.encoding.stateVariables
    hs.wf hs.wf.graph.truth_mem)).congr hs rfl fun t ht => ?_
  have hvars : t.encoding.stateVariables = s.encoding.stateVariables := by
    rw [stateVariables, stateVariables, ht.vars]
  rw [← hvars]
  rfl

section

variable {e : Encoding} (wf : e.WellFormed) {m : Machine} (hm : m.Over e) (f : Formula)
  (bound : Int64) (l : Loop) (offset : Int64) (fair : Bool)

include wf hm

theorem fairnessConstraint_mirror :
    Mirror e (fairnessConstraint m bound l) (fairnessConstraint m bound l) := by
  refine ite_mirror (fun _ => falsity_mirror) fun _ => ite_mirror (fun _ => truth_mirror) fun _ =>
    refuse_mirror fun _ s hs hle => ?_
  refine made_mirrors hs (fairWithin_remakes _ _ _ hs.wf (fun k hk => ?_) hs.wf.graph.truth_mem)
  exact ((hm.of_le wf hle).fairness k (Array.mem_toList_iff.1 hk)).mem

theorem onStraight_mirror :
    Mirror e (onStraightBy remember m f bound offset fair)
      (onStraightBy forget m f bound offset fair) :=
  ite_mirror (fun _ => fairnessConstraint_mirror wf hm bound .none)
    fun _ => straight_mirror bound offset f 0

theorem onLoop_mirror :
    Mirror e (onLoopBy remember m f bound l offset fair)
      (onLoopBy forget m f bound l offset fair) := by
  intro s hs hle
  have hreturns := loopCondition_mirror (e := e) (offset + bound) (offset + l.word) s hs hle
  have hfairly := ite_mirror (c := fair = true)
    (fun _ => fairnessConstraint_mirror wf hm (offset + bound) ⟨offset + l.word⟩)
    (fun _ => truth_mirror) _ hreturns.faithful (le_trans hle hreturns.later.grows)
  have hholds := looping_mirror (e := e) bound offset f 0 l _ hfairly.faithful
    (le_trans hle (hreturns.later.trans hfairly.later).grows)
  refine hreturns.bind_unless (hfairly.bind_unless (hholds.bind_unless ?_))
  have hinner := onGraph_mirrors Graph.and_repeatable hholds.faithful
    (hholds.mem hfairly.there.mem) hholds.there.mem
  refine hinner.bind (joined_mirrors Graph.and_repeatable hinner.faithful ?_ hinner.there
    consistent_none)
  exact hinner.mem (hholds.mem (hfairly.mem hreturns.there.mem))

theorem onAll_mirror :
    Mirror e (onAllBy remember m f bound offset fair) (onAllBy forget m f bound offset fair) := by
  intro s hs hle
  have hwithout := onStraight_mirror wf hm f bound offset fair s hs hle
  have hloops := joinTimes_mirrors Graph.or_repeatable (times 0 bound)
    (fun l _ => onLoop_mirror wf hm f bound ⟨l⟩ offset fair) hwithout.faithful
    (le_trans hle hwithout.later.grows) hwithout.faithful.wf.graph.falsity_mem
  refine hwithout.bind_unless (hloops.bind_unless ?_)
  exact joined_mirrors Graph.or_repeatable hloops.faithful (hloops.mem hwithout.there.mem)
    hloops.there.mem consistent_none

theorem onPaths_mirror :
    Mirror e (onPathsBy remember m f bound l offset fair)
      (onPathsBy forget m f bound l offset fair) :=
  ite_mirror (fun _ => onAll_mirror wf hm f bound offset fair) fun _ =>
    ite_mirror (fun _ => onStraight_mirror wf hm f bound offset fair) fun _ =>
      onLoop_mirror wf hm f bound (l.absolute bound) offset fair

theorem semantics_mirror :
    Mirror e (semanticsBy remember m f bound l offset fair)
      (semanticsBy forget m f bound l offset fair) := by
  unfold semanticsBy
  cases checkSemantics bound l offset with
  | error err => exact fail_mirror (consistent_argument err)
  | ok _ =>
    intro s hs hle
    have htable := onTable_mirrors (Table.normal_fst f) hs
    exact htable.bind (onPaths_mirror wf hm _ bound l offset fair _ htable.faithful hle)

theorem violation_mirror :
    Mirror e (violationBy remember m f bound l) (violationBy forget m f bound l) := by
  unfold violationBy
  cases checkSemantics bound l 0 with
  | error err => exact fail_mirror (consistent_argument err)
  | ok _ =>
    intro s hs hle
    have htable := onTable_mirrors (Table.negation_fst f) hs
    exact htable.bind (onPaths_mirror wf hm _ bound l 0 true _ htable.faithful hle)

theorem problem_mirror :
    Mirror e (problemBy remember m f bound l) (problemBy forget m f bound l) := by
  intro s hs hle
  have hviolated := violation_mirror wf hm f bound l s hs hle
  have hpath := onEncoding_mirrors hviolated.faithful (m.path_remakes hviolated.faithful.wf
    (hm.of_le wf (le_trans hle hviolated.later.grows)) bound.toUInt64)
  refine hviolated.bind_unless (hpath.bind ?_)
  exact joined_mirrors Graph.and_repeatable hpath.faithful hpath.there
    (hpath.mem hviolated.there.mem) consistent_none

end

end Encoder

end Lasso
