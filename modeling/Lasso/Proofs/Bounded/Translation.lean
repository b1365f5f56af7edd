import Lasso.Proofs.Bounded.Blame
import Lasso.Proofs.Bounded.Witness

/-! # Offsets translate the timeline

An encoding at an offset is the encoding without one, moved along the global timeline: it fails for
the same reason, and under every assignment it has the value that the other has on the timeline
which is moved back by the offset.
-/

namespace Lasso

set_option autoImplicit false

/-- The place of a variable, moved along the global timeline. -/
def Origin.later (offset : UInt64) : Origin → Origin
  | .current i => .current i
  | .next i => .next i
  | .timed i t => .timed i (t + offset)

namespace Encoding

/-- The second assignment gives every variable at a time the value that the first gives it later,
by an offset. -/
def Shifts (offset : UInt64) (e e' : Encoding) (ρ σ : Assignment) : Prop :=
  ∀ (i : Nat) (t : UInt64) (l l' : Lit), e.timeline[(i, t + offset)]? = some l →
    e'.timeline[(i, t)]? = some l' → σ l'.var = ρ l.var

/-- Every assignment can be shifted. -/
theorem exists_shifts {e' : Encoding} (wf' : e'.WellFormed) (offset : UInt64) (e : Encoding)
    (ρ : Assignment) : ∃ σ, Shifts offset e e' ρ σ := by
  refine ⟨e'.assign fun o => e.viewOf ρ (o.later offset), fun i t l l' hl hl' => ?_⟩
  rw [e'.agrees_assign _ _ _ ((wf'.timeline i t l').1 hl').2]
  simp only [Origin.later, viewOf, hl, Option.map_some, Option.getD_some]

/-- What the first assignment shows, and where it shows nothing what the second one shows. -/
def viewBefore (offset : UInt64) (e e' : Encoding) (ρ σ : Assignment) : View
  | .current i => e.viewOf ρ (.current i)
  | .next i => e.viewOf ρ (.next i)
  | .timed i t => (e.timeline[(i, t)]?.map fun l => ρ l.var).getD
      (e'.viewOf σ (.timed i (t - offset)))

def viewAfter (offset : UInt64) (e e' : Encoding) (ρ σ : Assignment) : View
  | .current i => e'.viewOf σ (.current i)
  | .next i => e'.viewOf σ (.next i)
  | .timed i t => viewBefore offset e e' ρ σ (.timed i (t + offset))

/-- Shifted assignments show views of which the second is the first, moved back in time. -/
theorem Shifts.exists_views {offset : UInt64} {e e' : Encoding} (wf : e.WellFormed)
    (wf' : e'.WellFormed) {ρ σ : Assignment} (h : Shifts offset e e' ρ σ) :
    ∃ W V : View, e.Agrees ρ W ∧ e'.Agrees σ V ∧ ∀ t, V.letter t = W.letter (t + offset) := by
  refine ⟨viewBefore offset e e' ρ σ, viewAfter offset e e' ρ σ, fun v o ho => ?_,
    fun v o ho => ?_, fun t => rfl⟩
  · cases o with
    | current i => exact wf.agrees_viewOf ρ v _ ho
    | next i => exact wf.agrees_viewOf ρ v _ ho
    | timed i t =>
      have hl := (wf.timeline i t (.pos v)).2 ⟨rfl, ho⟩
      simp [viewBefore, hl]
  · cases o with
    | current i => exact wf'.agrees_viewOf σ v _ ho
    | next i => exact wf'.agrees_viewOf σ v _ ho
    | timed i t =>
      have hl' := (wf'.timeline i t (.pos v)).2 ⟨rfl, ho⟩
      have hold := wf'.agrees_viewOf σ v _ ho
      rw [viewAfter, viewBefore, UInt64.add_sub_cancel]
      cases hl : e.timeline[(i, t + offset)]? with
      | none => exact hold
      | some l => exact h i t l (.pos v) hl hl'

theorem atoms_shift (e : Encoding) {offset : Int64} {V W : View}
    (h : ∀ t, V.letter t = W.letter (t + offset.toUInt64)) :
    e.atoms.onPath offset W = e.atoms.onPath 0 V := by
  funext time x
  rw [Atoms.onPath, Atoms.onPath, atoms, atoms, h, Int64.add_zero, Int64.toUInt64_add]

theorem instants_add (first offset : UInt64) (count : Nat) :
    instants (first + offset) count = (instants first count).map (· + offset) := by
  rw [instants_eq, instants_eq, List.map_map]
  refine List.map_congr_left fun j _ => ?_
  rw [Function.comp, UInt64.add_assoc, UInt64.add_assoc, UInt64.add_comm offset]

theorem intervalLength_ofNat {first last : Nat} (hle : first ≤ last) (h : last < 2 ^ 64) :
    intervalLength (.ofNat first) (.ofNat last) = last - first + 1 := by
  have hfirst : (UInt64.ofNat first).toNat = first := UInt64.toNat_ofNat_of_lt' (by
    simp only [UInt64.size]
    omega)
  have hlast : (UInt64.ofNat last).toNat = last := UInt64.toNat_ofNat_of_lt' h
  have hle' : UInt64.ofNat first ≤ .ofNat last := by
    rw [UInt64.le_iff_toNat_le, hfirst, hlast]
    exact hle
  rw [intervalLength, if_pos hle', UInt64.toNat_sub_of_le _ _ hle', hfirst, hlast]

theorem fairWithin_shift (e : Encoding) (ls : List Lit) {first last offset : Nat}
    (hle : first ≤ last) (h : offset + last < 2 ^ 64) {V W : View}
    (hVW : ∀ t, V.letter t = W.letter (t + .ofNat offset)) :
    e.fairWithin ls (.ofNat (offset + first)) (.ofNat (offset + last)) W =
      e.fairWithin ls (.ofNat first) (.ofNat last) V := by
  have hlength : offset + last - (offset + first) = last - first := by omega
  rw [fairWithin, fairWithin, intervalLength_ofNat hle (by omega),
    intervalLength_ofNat (by omega) h, hlength, Nat.add_comm offset first, UInt64.ofNat_add,
    instants_add]
  simp only [List.any_map, Function.comp_def, hVW]

end Encoding

namespace Encoder

open Encoding

/-- One encoding is another moved in time by an offset: both fail for the same reason, or the first
has the value that the second has on the shifted timeline. -/
structure Translates (offset : Int64) (r r' : Encoded × Encoder) : Prop where
  error : r.1.error? = r'.1.error?
  eval : r.1.error? = none → ∀ ρ σ, Shifts offset.toUInt64 r.2.encoding r'.2.encoding ρ σ →
    r.2.encoding.graph.eval ρ r.1.expr = r'.2.encoding.graph.eval σ r'.1.expr

/-- It is enough that the values are the same in views of which one is the other moved back. -/
theorem Encodes.translates {s s' : Encoder} {r r' : Encoded × Encoder} {ok ok' : Bool}
    {φ φ' : Atoms → View → Bool} {offset : Int64} (h : s.Encodes r (fun _ => False) ok φ)
    (h' : s'.Encodes r' (fun _ => False) ok' φ') (hvars : s'.encoding.vars = s.encoding.vars)
    (herror : r.1.error? = r'.1.error?)
    (heq : ∀ V W : View, (∀ t, V.letter t = W.letter (t + offset.toUInt64)) →
      φ s.encoding.atoms W = φ' s.encoding.atoms V) : Translates offset r r' where
  error := herror
  eval hnone ρ σ hshifts := by
    obtain ⟨W, V, hW, hV, hVW⟩ := hshifts.exists_views h.evolves.wf.encoding
      h'.evolves.wf.encoding
    have hp : r.2.encoding.Interprets s.encoding.atoms :=
      s.encoding.interprets_atoms.of_vars h.evolves.vars
    have hp' : r'.2.encoding.Interprets s.encoding.atoms :=
      s.encoding.interprets_atoms.of_vars (h'.evolves.vars.trans hvars)
    rw [(h.means hnone _ hp).eval ρ W hW, (h'.means (herror ▸ hnone) _ hp').eval σ V hV,
      heq V W hVW]

section

variable {V W : View} (e : Encoding) (m : Machine) (f : Formula) (fair : Bool) {k o : Nat}

theorem onStraightValue_shift (bound : Int64) {offset : Int64}
    (hVW : ∀ t, V.letter t = W.letter (t + offset.toUInt64)) :
    onStraightValue m f bound offset fair e.atoms W = onStraightValue m f bound 0 fair e.atoms V := by
  rw [onStraightValue, onStraightValue, e.atoms_shift hVW]

variable (hVW : ∀ t, V.letter t = W.letter (t + (Int64.ofNat o).toUInt64))
  (hsum : o + k < 2 ^ 63 - 2)

include hVW hsum

theorem fairValue_shift {j : Nat} (hj : j < k) :
    fairValue e m (.ofNat (o + k)) ⟨.ofNat (o + j)⟩ W =
      fairValue e m (.ofNat k) ⟨.ofNat j⟩ V := by
  have hnone := (Loop.isSingle_iff.1 (Loop.isSingle_ofNat (n := o + j) (by omega))).1
  have hnone' := (Loop.isSingle_iff.1 (Loop.isSingle_ofNat (n := j) (by omega))).1
  have hzero : ∀ n, 0 < n → n < 2 ^ 63 → decide (Int64.ofNat n = 0) = false := by
    intro n hpos hn
    refine decide_eq_false fun h => ?_
    have := (ofNat_inj (b := 0) hn (by omega)).1 h
    omega
  have hlast : o + k - 1 = o + (k - 1) := by omega
  rw [fairValue, fairValue, hnone, hnone', hzero _ (by omega) (by omega),
    hzero k (by omega) (by omega), ofNat_sub_one (by omega), ofNat_sub_one (by omega), hlast]
  exact congrArg _ (congrArg _ (fairWithin_shift e _ (by omega) (by omega) hVW))

theorem onLoopValue_shift {j : Nat} (hj : j < k) :
    onLoopValue m f (.ofNat k) (.ofNat o) fair e ⟨.ofNat j⟩ e.atoms W =
      onLoopValue m f (.ofNat k) 0 fair e ⟨.ofNat j⟩ e.atoms V := by
  have hletter : ∀ t, W.letter (Int64.ofNat o + .ofNat t).toUInt64 =
      V.letter (Int64.ofNat t).toUInt64 := by
    intro t
    rw [hVW, Int64.toUInt64_add, UInt64.add_comm]
  rw [onLoopValue, onLoopValue, e.atoms_shift hVW, hletter, hletter, ← Int64.ofNat_add,
    ← Int64.ofNat_add, fairValue_shift e m hVW hsum hj, Int64.zero_add, Int64.zero_add]

theorem onPathsValue_shift {l : Loop}
    (hsingle : l.isSingle → ∃ j < k, l.absolute (.ofNat k) = ⟨.ofNat j⟩) :
    onPathsValue m f (.ofNat k) (.ofNat o) fair e l e.atoms W =
      onPathsValue m f (.ofNat k) 0 fair e l e.atoms V := by
  unfold onPathsValue
  split
  · have hloop : ∀ t ∈ times 0 (Int64.ofNat k),
        onLoopValue m f (.ofNat k) (.ofNat o) fair e ⟨t⟩ e.atoms W =
          onLoopValue m f (.ofNat k) 0 fair e ⟨t⟩ e.atoms V := by
      intro t ht
      rw [times_zero (by omega), List.mem_map] at ht
      obtain ⟨j, hj, rfl⟩ := ht
      have hjk := List.mem_range'_1.1 hj
      exact onLoopValue_shift e m f fair hVW hsum (by omega)
    rw [onAllValue, onAllValue, onStraightValue_shift e m f fair _ hVW]
    refine congrArg _ ?_
    rw [Bool.eq_iff_iff, List.any_eq_true, List.any_eq_true]
    exact exists_congr fun t => and_congr_right fun ht => by rw [hloop t ht]
  split
  · exact onStraightValue_shift e m f fair _ hVW
  · rename_i hall hnone
    obtain ⟨j, hj, habs⟩ :=
      hsingle (Loop.isSingle_iff.2 ⟨by simpa using hnone, by simpa using hall⟩)
    rw [habs]
    exact onLoopValue_shift e m f fair hVW hsum hj

end

theorem onPathsValue_congr {e e' : Encoding} {m : Machine} (hvars : e'.vars = e.vars)
    (hfair : ∀ first last V, e'.fairWithin m.fairness.toList first last V =
      e.fairWithin m.fairness.toList first last V)
    (f : Formula) (bound offset : Int64) (fair : Bool) (l : Loop) (p : Atoms) (V : View) :
    onPathsValue m f bound offset fair e' l p V = onPathsValue m f bound offset fair e l p V := by
  simp only [onPathsValue, onAllValue, onLoopValue, fairValue, sameState, stateVariables, hvars,
    hfair]

theorem semantics_encodes {s : Encoder} (wf : s.WellFormed) {m : Machine} (hm : m.Over s.encoding)
    (f : Formula) {bound : Int64} {l : Loop} {offset : Int64}
    (hcheck : checkSemantics bound l offset = .ok ()) (fair : Bool) :
    s.Encodes (semantics m f bound l offset fair s) (fun _ => False)
      (onPathsOk m f.normal bound offset fair s.accepts l)
      (onPathsValue m f.normal bound offset fair s.encoding l) := by
  have hev := onTable_evolves wf (Table.normal f) (fun _ => False)
  have h := onPaths_encodes f.normal bound offset fair hev.wf (hm.of_le wf.encoding hev.grows) l
  unfold semantics
  rw [hcheck]
  dsimp only
  rw [bind_apply, onTable_eq, Table.normal_fst]
  rw [hev.accepts_eq] at h
  exact h.after hev

section

variable {m : Machine} {e : Encoding} (wf : e.WellFormed) (hm : m.Over e) {s s' : Encoder}
  (wfs : s.WellFormed) (wfs' : s'.WellFormed) (hle : e ≤ s.encoding) (hle' : e ≤ s'.encoding)
  (hvars : s'.encoding.vars = s.encoding.vars) (f : Formula) (bound : Int64) {o : Nat}
  (ho : o < 2 ^ 63)

include wf hm wfs wfs' hle hle' hvars ho

theorem straight_translates (time : Int64) :
    Translates (.ofNat o) (straight f time bound (.ofNat o) s) (straight f time bound 0 s') := by
  refine (straight_meets f time bound (.ofNat o) s wfs).translates
    (straight_meets f time bound 0 s' wfs') hvars ?_ fun V W hVW => ?_
  · exact (straight_parallel ho (by omega : 0 < 2 ^ 63) f time).error_eq
      (straight_failsAlike f time) ((Call.straight f time bound (.ofNat o)).mirror wf hm)
      (straight_failsAlike f time) ((Call.straight f time bound 0).mirror wf hm) wfs wfs' hle hle'
      hvars
  · rw [atoms_shift _ hVW]

theorem looping_translates (time : Int64) (l : Loop) :
    Translates (.ofNat o) (looping f time bound l (.ofNat o) s) (looping f time bound l 0 s') := by
  refine (looping_meets f time bound l (.ofNat o) s wfs).translates
    (looping_meets f time bound l 0 s' wfs') hvars ?_ fun V W hVW => ?_
  · exact (looping_parallel ho (by omega : 0 < 2 ^ 63) f time l).error_eq
      (looping_failsAlike f time l) ((Call.looping f time bound l (.ofNat o)).mirror wf hm)
      (looping_failsAlike f time l) ((Call.looping f time bound l 0).mirror wf hm) wfs wfs' hle
      hle' hvars
  · rw [atoms_shift _ hVW]

theorem semantics_translates (hsum : (o : Int) + bound.toInt < 2 ^ 63 - 2) (l : Loop)
    (fair : Bool) :
    Translates (.ofNat o) (semantics m f bound l (.ofNat o) fair s)
      (semantics m f bound l 0 fair s') := by
  have herror : (semantics m f bound l (.ofNat o) fair s).1.error? =
      (semantics m f bound l 0 fair s').1.error? :=
    (semantics_parallel m f bound l fair ho (by omega : 0 < 2 ^ 63) hsum (by omega)).error_eq
      (semantics_failsAlike wf hm f bound l _ fair)
      ((Call.semantics f bound l (.ofNat o) fair).mirror wf hm)
      (semantics_failsAlike wf hm f bound l _ fair)
      ((Call.semantics f bound l 0 fair).mirror wf hm) wfs wfs' hle hle' hvars
  cases hcheck : checkSemantics bound l (.ofNat o) with
  | error err =>
    refine ⟨herror, fun hnone => ?_⟩
    unfold semantics at hnone
    rw [hcheck] at hnone
    cases hnone
  | ok _ =>
    have hcheck' : checkSemantics bound l 0 = .ok () :=
      (checkSemantics_congr (by omega : 0 < 2 ^ 63) ho).trans hcheck
    obtain ⟨k, hk, rfl, hsingle⟩ := checkSemantics_cases hcheck
    rw [Int64.toInt_ofNat_of_lt hk] at hsum
    have hfair := fun {t : Encoder} (hle : e ≤ t.encoding) (first last : UInt64) (V : View) =>
      fairWithin_of_le wf hle (fun l hl => hm.fairness l (Array.mem_toList_iff.1 hl)) first last V
    refine (semantics_encodes wfs (hm.of_le wf hle) f hcheck fair).translates
      (semantics_encodes wfs' (hm.of_le wf hle') f hcheck' fair) hvars herror fun V W hVW => ?_
    rw [onPathsValue_congr hvars fun first last V =>
      (hfair hle' first last V).trans (hfair hle first last V).symm]
    exact onPathsValue_shift _ m _ fair hVW (by omega) hsingle

end

/-- Offsets only translate the timeline. -/
theorem offset_translates [Solver] {m : Machine} {e : Encoding} {table table' : Table}
    {s s' : Encoder} (hbuilt : m.Built e) (hsteps : Steps m (fresh e table) s)
    (hsteps' : Steps m (fresh e table') s') (hvars : s'.encoding.vars = s.encoding.vars)
    (f : Formula) (bound : Int64) {offset : Int64} (hoffset : 0 ≤ offset) :
    (∀ time, Translates offset (straight f time bound offset s) (straight f time bound 0 s')) ∧
    (∀ time l,
      Translates offset (looping f time bound l offset s) (looping f time bound l 0 s')) ∧
    (offset.toInt + bound.toInt < 2 ^ 63 - 2 → ∀ l fair, Translates offset
      (semantics m f bound l offset fair s) (semantics m f bound l 0 fair s')) := by
  obtain ⟨wf, hm⟩ := hbuilt.wellFormed
  obtain ⟨wfs, hle⟩ := hsteps.grows (wellFormed_of_entries wf rfl) hm
  obtain ⟨wfs', hle'⟩ := hsteps'.grows (wellFormed_of_entries wf rfl) hm
  obtain ⟨o, ho, rfl⟩ := exists_ofNat hoffset
  refine ⟨straight_translates wf hm wfs wfs' hle hle' hvars f bound ho,
    looping_translates wf hm wfs wfs' hle hle' hvars f bound ho, fun hsum => ?_⟩
  rw [Int64.toInt_ofNat_of_lt ho] at hsum
  exact semantics_translates wf hm wfs wfs' hle hle' hvars f bound ho hsum

/-- Until on a looping path, at an offset and then without one, on the same encoder. -/
theorem offset_translates_until :
    let f : Formula := .binary .untl (.atom (.symbol () "p")) (.atom (.symbol () "q"))
    let r := semantics {} f 3 ⟨1⟩ 2 true (fresh pairEncoding {})
    let r' := semantics {} f 3 ⟨1⟩ 0 true r.2
    r.1.error? = none ∧ r'.1.error? = none ∧
      ∀ ρ, ∃ σ, Shifts (2 : Int64).toUInt64 r.2.encoding r'.2.encoding ρ σ ∧
        r.2.encoding.graph.eval ρ r.1.expr = r'.2.encoding.graph.eval σ r'.1.expr := by
  intro f r r'
  have hdef : r = semantics {} f 3 ⟨1⟩ 2 true (fresh pairEncoding {}) := rfl
  have hdef' : r' = semantics {} f 3 ⟨1⟩ 0 true r.2 := rfl
  clear_value r r'
  obtain ⟨wf, hm⟩ := built_pairEncoding.wellFormed
  have wfs := wellFormed_of_entries (s := fresh pairEncoding {}) wf rfl
  have hcheck : checkSemantics 3 ⟨1⟩ 2 = .ok () := rfl
  have hr := semantics_encodes wfs hm f hcheck true
  have hsteps : Steps {} (fresh pairEncoding {}) r.2 :=
    hdef ▸ .single (.use (.semantics f 3 ⟨1⟩ 2 true))
  have hsteps' : Steps {} (fresh pairEncoding {}) r'.2 :=
    hdef' ▸ hsteps.tail (.use (.semantics f 3 ⟨1⟩ 0 true))
  rw [← hdef] at hr
  have hoffset : (0 : Int64) ≤ 2 := by decide
  obtain ⟨-, -, hsemantics⟩ := offset_translates built_pairEncoding .refl hsteps
    hr.evolves.vars f 3 hoffset
  have htranslates := hsemantics (by decide) ⟨1⟩ true
  rw [← hdef, ← hdef'] at htranslates
  have hnone : r.1.error? = none := hr.succeeds.2 (by decide +kernel)
  refine ⟨hnone, htranslates.error ▸ hnone, fun ρ => ?_⟩
  obtain ⟨σ, hσ⟩ := exists_shifts (hsteps'.grows wfs hm).1.encoding (2 : Int64).toUInt64
    r.2.encoding ρ
  exact ⟨σ, hσ, htranslates.eval hnone ρ σ hσ⟩

end Encoder

end Lasso
