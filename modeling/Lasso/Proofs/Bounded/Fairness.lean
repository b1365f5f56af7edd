import Lasso.Proofs.Bounded.Straight
import Lasso.Proofs.Machine.Locality

/-! # Repeated states and fair loops

A path loops if the state variables have the same values at two times, and is fair if every
obligation holds somewhere in between.  The expressions for this have the values they should.
-/

namespace Lasso

set_option autoImplicit false

namespace Encoding

/-- Every obligation holds at some time of an interval each. -/
def fairWithin (e : Encoding) (ls : List Lit) (first last : UInt64) (V : View) : Bool :=
  ls.all fun l => (instants first (intervalLength first last)).any fun t =>
    e.holds l (V.letter t) (V.letter t)

theorem fairWithin_of_le {e e' : Encoding} (wf : e.WellFormed) (hle : e ≤ e') {ls : List Lit}
    (hls : ∀ l ∈ ls, e.Current l) (first last : UInt64) (V : View) :
    e'.fairWithin ls first last V = e.fairWithin ls first last V := by
  unfold fairWithin
  rw [Bool.eq_iff_iff, List.all_eq_true, List.all_eq_true]
  refine forall₂_congr fun l hl => ?_
  simp only [(hls l hl).untimed.holds_of_le wf hle]

end Encoding

namespace Encoder

open Encoding

theorem sameAt_cons (source target : UInt64) (x : Variable) (vs : List Variable) (result : Lit)
    (e : Encoding) :
    sameAt source target (x :: vs) result e =
      let before := variableAt x.index target e
      let after := variableAt x.index source before.2
      let same := Encoding.onGraph (Graph.iff before.1 after.1) after.2
      let both := Encoding.onGraph (Graph.and result same.1) same.2
      sameAt source target vs both.1 both.2 := by
  rw [sameAt, Encoding.bind_apply, Encoding.bind_apply, Encoding.bind_apply, Encoding.bind_apply]

theorem sameAt_builds (source target : UInt64) (vs : List Variable) {e : Encoding}
    (wf : e.WellFormed) {result : Lit} {ψ : View → Bool} (hresult : e.Denotes result ψ) :
    e.Builds (sameAt source target vs result e)
      (fun V => ψ V && vs.all fun x => V.letter target x.index == V.letter source x.index) := by
  induction vs generalizing e result ψ with
  | nil => exact (Builds.of_denotes wf hresult).congr fun V => by simp
  | cons x vs ih =>
    have hbefore := variableAt_builds wf x.index target
    have hafter := variableAt_builds hbefore.wf x.index source
    have hsame := onGraph_builds Graph.iff_computes hafter.wf
      (hafter.denotes_old hbefore.wf hbefore.denotes) hafter.denotes
    have hle := le_trans hbefore.grows (le_trans hafter.grows hsame.grows)
    have hboth := onGraph_builds Graph.and_computes hsame.wf (hresult.of_le wf hle) hsame.denotes
    rw [sameAt_cons]
    refine (hbefore.after (hafter.after (hsame.after
      (hboth.after (ih hboth.wf hboth.denotes))))).congr fun V => ?_
    rw [List.all_cons, ← Bool.and_assoc]
    rfl

theorem fairWithin_builds (first last : UInt64) (ls : List Lit) {e : Encoding}
    (wf : e.WellFormed) (hls : ∀ l ∈ ls, e.Current l) {result : Lit} {ψ : View → Bool}
    (hresult : e.Denotes result ψ) :
    e.Builds (fairWithin first last ls result e) (fun V => ψ V && e.fairWithin ls first last V) := by
  induction ls generalizing e result ψ with
  | nil => exact (Builds.of_denotes wf hresult).congr fun V => by simp [Encoding.fairWithin]
  | cons l ls ih =>
    have hsome := sometime_builds wf (hls l List.mem_cons_self) first last
    have hboth := onGraph_builds Graph.and_computes hsome.wf
      (hsome.denotes_old wf hresult) hsome.denotes
    have hle := le_trans hsome.grows hboth.grows
    have hold : ∀ k ∈ ls, e.Current k := fun k hk => hls k (List.mem_cons_of_mem l hk)
    refine (hsome.after (hboth.after (ih hboth.wf (fun k hk => (hold k hk).of_le wf hle)
      hboth.denotes))).congr fun V => ?_
    rw [fairWithin_of_le wf hle hold, Bool.and_assoc]
    rfl

variable {s : Encoder}

theorem loopCondition_encodes (wf : s.WellFormed) (source target : Int64) :
    s.Encodes (loopCondition source target s) (fun _ => False)
      (!(decide (source < 0) || decide (target < 0) || decide (target > source)))
      (fun _ V => s.encoding.sameState (V.letter target.toUInt64) (V.letter source.toUInt64)) := by
  unfold loopCondition
  by_cases h : (decide (source < 0) || decide (target < 0) || decide (target > source)) = true
  · rw [if_pos h, h]
    exact Encodes.of_fail wf _
  · rw [if_neg h, Bool.eq_false_iff.2 h]
    have hbuild := sameAt_builds source.toUInt64 target.toUInt64 s.encoding.stateVariables
      wf.encoding (denotes_truth wf.encoding)
    have hev := onEncoding_evolves wf hbuild (fun _ => False)
    exact Encodes.of_means hev fun p hp => hbuild.denotes.congr fun V => Bool.true_and _

/-- The value of the fairness constraint. -/
def fairValue (e : Encoding) (m : Machine) (bound : Int64) (l : Loop) (V : View) : Bool :=
  !l.isNone && (decide (bound = 0) ||
    e.fairWithin m.fairness.toList l.word.toUInt64 (bound - 1).toUInt64 V)

/-- Whether there is a fairness constraint. -/
def fairOk (bound : Int64) (l : Loop) : Bool :=
  l.isNone || (decide (bound = 0) ||
    !(decide (bound < 0) || !l.isSingle || decide (l.word < 0) || decide (l.word > bound)))

theorem fairnessConstraint_encodes (wf : s.WellFormed) {m : Machine} (hm : m.Over s.encoding)
    (bound : Int64) (l : Loop) :
    s.Encodes (fairnessConstraint m bound l s) (fun _ => False) (fairOk bound l)
      (fun _ V => fairValue s.encoding m bound l V) := by
  unfold fairnessConstraint fairOk fairValue
  by_cases hnone : l.isNone = true
  · rw [if_pos hnone, hnone]
    exact Encodes.of_means (.refl wf) (means_falsity wf)
  rw [if_neg hnone, Bool.eq_false_iff.2 hnone]
  by_cases hzero : bound = 0
  · rw [if_pos hzero, decide_eq_true hzero]
    exact Encodes.of_means (.refl wf) (means_truth wf)
  rw [if_neg hzero, decide_eq_false hzero]
  by_cases h : (decide (bound < 0) || !l.isSingle || decide (l.word < 0) ||
      decide (l.word > bound)) = true
  · rw [if_pos h, h]
    exact Encodes.of_fail wf _
  · rw [if_neg h, Bool.eq_false_iff.2 h]
    have hbuild := fairWithin_builds l.word.toUInt64 (bound - 1).toUInt64 m.fairness.toList
      wf.encoding (fun k hk => hm.fairness k (Array.mem_toList_iff.1 hk))
      (denotes_truth wf.encoding)
    have hev := onEncoding_evolves wf hbuild (fun _ => False)
    exact Encodes.of_means hev fun p hp => hbuild.denotes.congr fun V => Bool.true_and _

end Encoder

end Lasso
