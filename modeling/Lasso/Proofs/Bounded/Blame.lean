import Lasso.Proofs.Bounded.Compatible
import Lasso.Proofs.Bounded.Failure
import Lasso.Proofs.Bounded.HistoryIndependence
import Lasso.Proofs.Bounded.Times

/-! # Why an encoding fails

An encoding fails for a formula, its arguments or the declared variables.  The offset moves what is
encoded in time and is none of these: as long as it is an offset at all, an encoding fails for the
same reason at every offset.  What is remembered plays no part in this, so the recursion without a
memory is all there is to look at.
-/

namespace Lasso

set_option autoImplicit false

namespace Encoding

theorem vars_variableAt (i : Nat) (t : UInt64) (e : Encoding) :
    (variableAt i t e).2.vars = e.vars := by
  rw [variableAt_eq]
  cases e.timeline[(i, t)]? <;> rfl

theorem vars_leafAt (time : UInt64) (v : Nat) (e : Encoding) :
    (leafAt time v e).2.vars = e.vars := by
  rw [leafAt_eq]
  split
  · exact vars_variableAt _ _ e
  · exact vars_variableAt _ _ e
  · rfl

theorem vars_rebuildNode {leaf : Nat → StateM Encoding Lit}
    (hleaf : ∀ v e, (leaf v e).2.vars = e.vars) (v : Nat) (memo : Std.HashMap Nat Lit)
    (e : Encoding) : (rebuildNode leaf v memo e).2.vars = e.vars := by
  induction v using Nat.strongRecOn generalizing memo e with
  | _ v ih =>
    rw [rebuildNode_eq]
    split
    · rfl
    split
    · rfl
    split
    · exact hleaf v e
    · rename_i p _
      exact (ih _ p.2.2 _ _).trans (ih _ p.2.1 _ _)

theorem vars_instantiate (l : Lit) (time : UInt64) (e : Encoding) :
    (instantiate l time e).2.vars = e.vars :=
  vars_rebuildNode (vars_leafAt time) l.var {} e

theorem vars_joinFrom (join : Lit → Lit → StateM Graph Lit) (l : Lit) (count : Nat)
    (time : UInt64) (result : Lit) (e : Encoding) :
    (joinFrom join l count time result e).2.vars = e.vars := by
  induction count generalizing time result e with
  | zero => rfl
  | succ count ih => exact (ih _ _ _).trans (vars_instantiate l time e)

end Encoding

namespace Encoder

open Encoding

theorem vars_sameAt (source target : UInt64) (vs : List Variable) (result : Lit) (e : Encoding) :
    (sameAt source target vs result e).2.vars = e.vars := by
  induction vs generalizing result e with
  | nil => rfl
  | cons x vs ih =>
    rw [sameAt_cons]
    simp only [ih, Encoding.onGraph_eq, vars_variableAt]

theorem vars_fairWithin (first last : UInt64) (ls : List Lit) (result : Lit) (e : Encoding) :
    (fairWithin first last ls result e).2.vars = e.vars := by
  induction ls generalizing result e with
  | nil => rfl
  | cons l ls ih => exact (ih _ _).trans (vars_joinFrom _ l _ _ _ e)

/-- Two encodings that declare no variables and, on encoders with the same variables, fail for the
same reason. -/
structure Parallel (x y : EncodeM Encoded) : Prop where
  vars : ∀ s : Encoder, (x s).2.encoding.vars = s.encoding.vars
  vars' : ∀ s : Encoder, (y s).2.encoding.vars = s.encoding.vars
  error : ∀ s s' : Encoder, s'.encoding.vars = s.encoding.vars →
    (y s').1.error? = (x s).1.error?

section

variable {x y x' y' : EncodeM Encoded}

theorem return_parallel {r r' : Encoded} (h : r'.error? = r.error?) :
    Parallel (return r) (return r') :=
  ⟨fun _ => rfl, fun _ => rfl, fun _ _ _ => h⟩

theorem Parallel.bind {k k' : Encoded → EncodeM Encoded} (hx : Parallel x y)
    (hk : ∀ a b : Encoded, b.error? = a.error? → Parallel (k a) (k' b)) :
    Parallel (x >>= k) (y >>= k') := by
  have herror := hx.error
  constructor
  · intro s
    exact ((hk _ _ (herror s s rfl)).vars _).trans (hx.vars s)
  · intro s
    exact ((hk _ _ (herror s s rfl)).vars' _).trans (hx.vars' s)
  · intro s s' h
    refine (hk _ _ (herror s s' h)).error _ _ ?_
    exact (hx.vars' s').trans (h.trans (hx.vars s).symm)

theorem Parallel.bind_unless {k k' : Encoded → EncodeM Encoded} (hx : Parallel x y)
    (hk : ∀ a b : Encoded, Parallel (k a) (k' b)) :
    Parallel (x >>= fun a => if a.failed then return a else k a)
      (y >>= fun b => if b.failed then return b else k' b) := by
  refine hx.bind fun a b h => ?_
  have hfailed : b.failed = a.failed := by rw [Encoded.failed, Encoded.failed, h]
  rw [hfailed]
  exact ite_related (fun _ => return_parallel h) fun _ => hk a b

theorem onGraph_parallel {c c' : StateM Graph Lit} {k k' : Lit → EncodeM Encoded}
    (hk : ∀ l l' : Lit, Parallel (k l) (k' l')) :
    Parallel (onGraph c >>= k) (onGraph c' >>= k') := by
  constructor
  · exact fun s => (hk (onGraph c s).1 (onGraph c' s).1).vars (onGraph c s).2
  · exact fun s => (hk (onGraph c s).1 (onGraph c' s).1).vars' (onGraph c' s).2
  · intro s s' h
    exact (hk (onGraph c s).1 (onGraph c' s').1).error (onGraph c s).2 (onGraph c' s').2 h

theorem both_parallel {join : Lit → Lit → StateM Graph Lit} (hx : Parallel x y)
    (hx' : Parallel x' y') : Parallel (both join x x') (both join y y') :=
  hx.bind_unless fun _ _ => hx'.bind_unless fun _ _ =>
    onGraph_parallel fun _ _ => return_parallel rfl

theorem Parallel.not (hx : Parallel x y) :
    Parallel (do return (← x).not) (do return (← y).not) :=
  hx.bind fun _ _ h => return_parallel h

theorem pair_parallel {join : Lit → Lit → StateM Graph Lit} (hx : Parallel x y)
    (hx' : Parallel x' y') :
    Parallel
      (do
        let now ← x
        let later ← x'
        return ⟨← onGraph (join now.expr later.expr), now.error?.or later.error?⟩)
      (do
        let now ← y
        let later ← y'
        return ⟨← onGraph (join now.expr later.expr), now.error?.or later.error?⟩) :=
  hx.bind fun _ _ h => hx'.bind fun _ _ h' => onGraph_parallel fun _ _ =>
    return_parallel (by rw [h, h'])

theorem triple_parallel {outer inner : Lit → Lit → StateM Graph Lit} {z z' : EncodeM Encoded}
    (hz : Parallel z z') (hx : Parallel x y) (hx' : Parallel x' y') :
    Parallel
      (do
        let goal ← z
        let now ← x
        let later ← x'
        let wait ← onGraph (inner now.expr later.expr)
        return ⟨← onGraph (outer goal.expr wait), (goal.error?.or now.error?).or later.error?⟩)
      (do
        let goal ← z'
        let now ← y
        let later ← y'
        let wait ← onGraph (inner now.expr later.expr)
        return ⟨← onGraph (outer goal.expr wait),
          (goal.error?.or now.error?).or later.error?⟩) :=
  hz.bind fun _ _ h => hx.bind fun _ _ h' => hx'.bind fun _ _ h'' =>
    onGraph_parallel fun _ _ => onGraph_parallel fun _ _ => return_parallel (by rw [h, h', h''])

theorem joinTimes_parallel {join : Lit → Lit → StateM Graph Lit}
    {encode encode' : Int64 → EncodeM Encoded} (ts : List Int64)
    (hencode : ∀ t ∈ ts, Parallel (encode t) (encode' t)) (result result' : Lit) :
    Parallel (joinTimes join encode ts result) (joinTimes join encode' ts result') := by
  induction ts generalizing result result' with
  | nil => exact return_parallel rfl
  | cons t ts ih =>
    refine (hencode t List.mem_cons_self).bind_unless fun _ _ => onGraph_parallel fun _ _ => ?_
    exact ih (fun u hu => hencode u (List.mem_cons_of_mem t hu)) _ _

theorem unfoldTimes_parallel {outer inner : Lit → Lit → StateM Graph Lit}
    {goal goal' wait wait' : Int64 → EncodeM Encoded} (ts : List Int64)
    (hgoal : ∀ t ∈ ts, Parallel (goal t) (goal' t))
    (hwait : ∀ t ∈ ts, Parallel (wait t) (wait' t)) (result result' : Lit) :
    Parallel (unfoldTimes outer inner goal wait ts result)
      (unfoldTimes outer inner goal' wait' ts result') := by
  induction ts generalizing result result' with
  | nil => exact return_parallel rfl
  | cons t ts ih =>
    refine (hgoal t List.mem_cons_self).bind fun a b h =>
      (hwait t List.mem_cons_self).bind fun a' b' h' => ?_
    rw [h, h']
    cases a.error?.or a'.error? with
    | some err => exact return_parallel rfl
    | none =>
      refine onGraph_parallel fun _ _ => onGraph_parallel fun _ _ => ih ?_ ?_ _ _
      · exact fun u hu => hgoal u (List.mem_cons_of_mem t hu)
      · exact fun u hu => hwait u (List.mem_cons_of_mem t hu)

theorem proposition_parallel (p : Expr) (time time' : Int64) :
    Parallel (proposition p time) (proposition p time') := by
  have hvars : ∀ (t : Int64) (s : Encoder),
      (proposition p t s).2.encoding.vars = s.encoding.vars := by
    intro t s
    rw [proposition_eq]
    dsimp only
    cases ((condition false p).run s.encoding).1 with
    | error err => exact vars_condition p
    | ok l => exact (vars_instantiate l t.toUInt64 _).trans (vars_condition p)
  refine ⟨hvars time, hvars time', fun s s' h => ?_⟩
  have herror : ∀ (t : Int64) (s : Encoder), (proposition p t s).1.error? =
      (reason? ((condition false p).run s.encoding).1).map .condition := by
    intro t s
    rw [proposition_eq]
    dsimp only
    cases ((condition false p).run s.encoding).1 <;> rfl
  rw [herror, herror, reason?_condition h]

theorem parallel_compatible : Compatible Parallel where
  falsity := return_parallel rfl
  fail _ := return_parallel rfl
  not h := h.not
  both _ _ _ _ _ h h' := both_parallel h h'
  pair _ _ _ _ _ h h' := pair_parallel h h'
  triple _ _ _ _ _ _ _ _ h h' h'' := triple_parallel h h' h''
  joinTimes _ _ _ ts _ h := joinTimes_parallel ts h _ _
  unfoldTimes _ _ _ _ _ _ ts _ h h' := unfoldTimes_parallel ts h h' _ _
  unfoldOnto _ _ _ _ _ _ _ _ ts hlast h h' :=
    hlast.bind_unless fun _ _ => unfoldTimes_parallel ts h h' _ _

section

variable {bound offset : Int64} (offset' : Int64)

theorem encodeStraight_parallel (f : Formula) (time : Int64) :
    Parallel (encodeStraightBy forget bound offset f time)
      (encodeStraightBy forget bound offset' f time) :=
  parallel_compatible.straight offset offset' (T := fun _ => True) (fun _ _ _ => trivial)
    (fun p _ _ _ => proposition_parallel p _ _) f time trivial

theorem encodeLooping_parallel {loop : Loop} (f : Formula) (time : Int64) :
    Parallel (encodeLoopingBy forget bound loop offset f time)
      (encodeLoopingBy forget bound loop offset' f time) :=
  have hvisits : Visits bound loop fun _ => True :=
    ⟨fun _ _ => trivial, fun _ _ => trivial, fun _ _ _ _ => trivial, fun _ _ _ _ => trivial⟩
  parallel_compatible.looping offset offset' hvisits
    (fun p _ _ _ => proposition_parallel p _ _) f time trivial

end

end

section

variable {bound : Int64} {o o' : Nat} (ho : o < 2 ^ 63) (ho' : o' < 2 ^ 63)

include ho ho'

theorem straight_parallel (f : Formula) (time : Int64) :
    Parallel (straightBy forget f time bound (.ofNat o))
      (straightBy forget f time bound (.ofNat o')) := by
  rw [straightBy, straightBy, if_neg (of_decide_eq_false (decide_ofNat_neg ho)),
    if_neg (of_decide_eq_false (decide_ofNat_neg ho'))]
  exact ite_related (fun _ => return_parallel rfl) fun _ =>
    ite_related (fun _ => return_parallel rfl) fun _ => encodeStraight_parallel _ f time

theorem looping_parallel (f : Formula) (time : Int64) (l : Loop) :
    Parallel (loopingBy forget f time bound l (.ofNat o))
      (loopingBy forget f time bound l (.ofNat o')) := by
  rw [loopingBy, loopingBy, if_neg (of_decide_eq_false (decide_ofNat_neg ho)),
    if_neg (of_decide_eq_false (decide_ofNat_neg ho'))]
  exact ite_related (fun _ => return_parallel rfl) fun _ =>
    ite_related (fun _ => return_parallel rfl) fun _ =>
      ite_related (fun _ => return_parallel rfl) fun _ => encodeLooping_parallel _ f time

end

theorem Parallel.of_none {x y : EncodeM Encoded}
    (hx : ∀ s : Encoder, (x s).1.error? = none ∧ (x s).2.encoding.vars = s.encoding.vars)
    (hy : ∀ s : Encoder, (y s).1.error? = none ∧ (y s).2.encoding.vars = s.encoding.vars) :
    Parallel x y :=
  ⟨fun s => (hx s).2, fun s => (hy s).2, fun s s' _ => (hy s').1.trans (hx s).1.symm⟩

theorem loopCondition_succeeds {source target : Nat} (hle : target ≤ source)
    (hsource : source < 2 ^ 63) (s : Encoder) :
    (loopCondition (.ofNat source) (.ofNat target) s).1.error? = none ∧
      (loopCondition (.ofNat source) (.ofNat target) s).2.encoding.vars = s.encoding.vars := by
  have hgt : decide (Int64.ofNat target > .ofNat source) = false := by
    refine decide_eq_false fun h => ?_
    have := (Int64.ofNat_lt_iff_lt hsource (by omega)).1 h
    omega
  unfold loopCondition
  rw [decide_ofNat_neg hsource, decide_ofNat_neg (n := target) (by omega), hgt]
  exact ⟨rfl, vars_sameAt _ _ _ _ _⟩

theorem fairnessConstraint_succeeds (m : Machine) {source target : Nat} (hlt : target < source)
    (hsource : source < 2 ^ 63 - 2) (s : Encoder) :
    (fairnessConstraint m (.ofNat source) ⟨.ofNat target⟩ s).1.error? = none ∧
      (fairnessConstraint m (.ofNat source) ⟨.ofNat target⟩ s).2.encoding.vars =
        s.encoding.vars := by
  have hsingle := Loop.isSingle_ofNat (n := target) (by omega)
  have hnone := (Loop.isSingle_iff.1 hsingle).1
  have hzero : ¬ Int64.ofNat source = 0 := by
    intro h
    have := (ofNat_inj (a := source) (b := 0) (by omega) (by omega)).1 h
    omega
  have hgt : decide (Int64.ofNat target > .ofNat source) = false := by
    refine decide_eq_false fun h => ?_
    have := (Int64.ofNat_lt_iff_lt (a := source) (b := target) (by omega) (by omega)).1 h
    omega
  unfold fairnessConstraint
  rw [hnone, if_neg Bool.false_ne_true, if_neg hzero, hsingle, decide_ofNat_neg (by omega),
    decide_ofNat_neg (n := target) (by omega), hgt]
  exact ⟨rfl, vars_fairWithin _ _ _ _ _⟩

section

variable (m : Machine) (f : Formula) (fair : Bool) {k o o' : Nat} (ho : o + k < 2 ^ 63 - 2)
  (ho' : o' + k < 2 ^ 63 - 2)

include ho ho'

theorem onLoop_parallel {j : Nat} (hj : j < k) :
    Parallel (onLoopBy forget m f (.ofNat k) ⟨.ofNat j⟩ (.ofNat o) fair)
      (onLoopBy forget m f (.ofNat k) ⟨.ofNat j⟩ (.ofNat o') fair) := by
  unfold onLoopBy
  dsimp only
  rw [← Int64.ofNat_add, ← Int64.ofNat_add, ← Int64.ofNat_add, ← Int64.ofNat_add]
  have hreturns : Parallel (loopCondition (.ofNat (o + k)) (.ofNat (o + j)))
      (loopCondition (.ofNat (o' + k)) (.ofNat (o' + j))) :=
    Parallel.of_none (loopCondition_succeeds (by omega) (by omega))
      (loopCondition_succeeds (by omega) (by omega))
  have hfairly : Parallel (fairnessConstraint m (.ofNat (o + k)) ⟨.ofNat (o + j)⟩)
      (fairnessConstraint m (.ofNat (o' + k)) ⟨.ofNat (o' + j)⟩) :=
    Parallel.of_none (fairnessConstraint_succeeds m (by omega) ho)
      (fairnessConstraint_succeeds m (by omega) ho')
  refine hreturns.bind_unless fun _ _ => Parallel.bind_unless ?_ fun _ _ =>
    (looping_parallel (by omega) (by omega) f 0 _).bind_unless fun _ _ =>
      onGraph_parallel fun _ _ => onGraph_parallel fun _ _ => return_parallel rfl
  exact ite_related (fun _ => hfairly) fun _ => return_parallel rfl

theorem onStraight_parallel :
    Parallel (onStraightBy forget m f (.ofNat k) (.ofNat o) fair)
      (onStraightBy forget m f (.ofNat k) (.ofNat o') fair) := by
  refine ite_related (fun _ => ?_) fun _ => straight_parallel (by omega) (by omega) f 0
  have hnone : ∀ bound, fairnessConstraint m bound .none = return ⟨Graph.falsity, none⟩ :=
    fun _ => rfl
  rw [hnone]
  exact return_parallel rfl

theorem onAll_parallel :
    Parallel (onAllBy forget m f (.ofNat k) (.ofNat o) fair)
      (onAllBy forget m f (.ofNat k) (.ofNat o') fair) := by
  refine (onStraight_parallel m f fair ho ho').bind_unless fun _ _ => Parallel.bind_unless
    (joinTimes_parallel _ (fun t ht => ?_) _ _) fun _ _ =>
      onGraph_parallel fun _ _ => return_parallel rfl
  rw [times_zero (by omega), List.mem_map] at ht
  obtain ⟨j, hj, rfl⟩ := ht
  have hjk : j < k := by
    have := List.mem_range'_1.1 hj
    omega
  exact onLoop_parallel m f fair ho ho' hjk

end

theorem checkSemantics_cases {bound : Int64} {l : Loop} {offset : Int64}
    (h : checkSemantics bound l offset = .ok ()) : ∃ k : Nat, k < 2 ^ 63 ∧ bound = .ofNat k ∧
      (l.isSingle → ∃ j < k, l.absolute bound = ⟨.ofNat j⟩) := by
  unfold checkSemantics Loop.check at h
  by_cases hb : bound < 0
  · rw [if_pos hb] at h
    cases h
  obtain ⟨k, hk, rfl⟩ := exists_ofNat (Int64.not_lt.1 hb)
  refine ⟨k, hk, rfl, fun hl => ?_⟩
  rw [if_neg hb, hl, if_neg (by simp)] at h
  by_cases hneg : (l.absolute (.ofNat k)).word < 0
  · rw [if_pos hneg] at h
    cases h
  by_cases hbig : (l.absolute (.ofNat k)).word > .ofNat k
  · rw [if_neg hneg, if_pos hbig] at h
    cases h
  rw [if_neg hneg, if_neg hbig] at h
  obtain ⟨j, hj, habs⟩ := exists_ofNat (Int64.not_lt.1 hneg)
  refine ⟨j, ?_, by rw [← habs]⟩
  by_contra hge
  have hge' : (l.absolute (.ofNat k)).word ≥ .ofNat k := by
    rw [habs]
    exact (Int64.ofNat_le_iff_le hk hj).2 (by omega)
  by_cases ho : offset < 0
  · simp [ho, bind, Except.bind] at h
  · simp [ho, bind, Except.bind, hge'] at h

theorem checkSemantics_congr {bound : Int64} {l : Loop} {o o' : Nat} (ho : o < 2 ^ 63)
    (ho' : o' < 2 ^ 63) :
    checkSemantics bound l (.ofNat o) = checkSemantics bound l (.ofNat o') := by
  rw [checkSemantics, checkSemantics, if_neg (of_decide_eq_false (decide_ofNat_neg ho)),
    if_neg (of_decide_eq_false (decide_ofNat_neg ho'))]

theorem onTable_parallel {x : StateM Table Formula} {f : Formula} (hx : ∀ t, (x t).1 = f)
    {k k' : Formula → EncodeM Encoded} (hk : Parallel (k f) (k' f)) :
    Parallel (onTable x >>= k) (onTable x >>= k') := by
  have hrun : ∀ (k : Formula → EncodeM Encoded) (s : Encoder),
      (onTable x >>= k) s = k f (onTable x s).2 := by
    intro k s
    rw [bind_apply, onTable_eq, hx]
  constructor
  · intro s
    rw [hrun]
    exact hk.vars _
  · intro s
    rw [hrun]
    exact hk.vars' _
  · intro s s' h
    rw [hrun, hrun]
    exact hk.error _ _ h

theorem semantics_parallel (m : Machine) (f : Formula) (bound : Int64) (l : Loop) (fair : Bool)
    {o o' : Nat} (ho : o < 2 ^ 63) (ho' : o' < 2 ^ 63)
    (hsum : (o : Int) + bound.toInt < 2 ^ 63 - 2) (hsum' : (o' : Int) + bound.toInt < 2 ^ 63 - 2) :
    Parallel (semanticsBy forget m f bound l (.ofNat o) fair)
      (semanticsBy forget m f bound l (.ofNat o') fair) := by
  unfold semanticsBy
  rw [checkSemantics_congr ho' ho]
  cases hcheck : checkSemantics bound l (.ofNat o) with
  | error err => exact return_parallel rfl
  | ok _ =>
    obtain ⟨k, hk, rfl, hsingle⟩ := checkSemantics_cases hcheck
    rw [Int64.toInt_ofNat_of_lt hk] at hsum hsum'
    refine onTable_parallel (Table.normal_fst f) ?_
    refine ite_related (fun _ => onAll_parallel m _ fair (by omega) (by omega)) fun hall =>
      ite_related (fun _ => onStraight_parallel m _ fair (by omega) (by omega)) fun hnone => ?_
    have hone : l.isSingle := Loop.isSingle_iff.2 ⟨by simpa using hnone, by simpa using hall⟩
    obtain ⟨j, hj, habs⟩ := hsingle hone
    rw [habs]
    exact onLoop_parallel m _ fair (by omega) (by omega) hj

theorem semantics_failsAlike {e : Encoding} (wf : e.WellFormed) {m : Machine} (hm : m.Over e)
    (f : Formula) (bound : Int64) (l : Loop) (offset : Int64) (fair : Bool) :
    FailsAlike e (semantics m f bound l offset fair) := by
  unfold semantics
  cases checkSemantics bound l offset with
  | error err => exact return_failsAlike _
  | ok _ =>
    intro s s' h
    dsimp only
    rw [bind_apply, bind_apply, onTable_eq, onTable_eq, Table.normal_fst, Table.normal_fst]
    exact onPaths_failsAlike wf hm f.normal bound offset fair l
      (h.of_leads (onTable_evolves h.wf (Table.normal f) _)
        (onTable_evolves h.wf' (Table.normal f) _))

/-- What an encoder remembers plays no part in why it fails: it fails as one that has forgotten
everything, and that one as the recursion without a memory. -/
theorem FailsAlike.error_forget {e : Encoding} {x y : EncodeM Encoded} (hfails : FailsAlike e x)
    (hmirror : Mirror e x y) {s : Encoder} (wf : s.WellFormed) (hle : e ≤ s.encoding) :
    (x s).1.error? = (y s).1.error? := by
  have hclear : Alike e s s.clear := ⟨wf, wellFormed_of_entries wf.encoding rfl, hle, hle, rfl⟩
  have hsame := (hmirror s.clear (faithful_of_entries wf.encoding rfl) hle).same s rfl
  rw [hsame.1, hfails hclear]

theorem Parallel.error_eq {e : Encoding} {x x' y y' : EncodeM Encoded} (h : Parallel y y')
    (hx : FailsAlike e x) (hxy : Mirror e x y) (hx' : FailsAlike e x') (hxy' : Mirror e x' y')
    {s s' : Encoder} (wf : s.WellFormed) (wf' : s'.WellFormed) (hle : e ≤ s.encoding)
    (hle' : e ≤ s'.encoding) (hvars : s'.encoding.vars = s.encoding.vars) :
    (x s).1.error? = (x' s').1.error? := by
  rw [hx.error_forget hxy wf hle, hx'.error_forget hxy' wf' hle', h.error s s' hvars]

end Encoder

end Lasso
