import Lasso.Bounded.Checker
import Lasso.Proofs.Bounded.Locality
import Lasso.Proofs.Bounded.Trace

/-! # The loop of a counterexample

If an assignment violates a formula on some path, then it does so on the path without a loop or
with the loop that is found by evaluating the semantics again, loop by loop.
-/

namespace Lasso

set_option autoImplicit false

namespace Loop

theorem absolute_ofNat {n : Nat} (h : n < 2 ^ 63) (k : Int64) :
    (Loop.mk (.ofNat n)).absolute k = ⟨.ofNat n⟩ := by
  have hneg : (Loop.mk (.ofNat n)).isRelative = false := decide_ofNat_neg h
  rw [absolute, hneg]
  rfl

theorem absolute_relative {k n : Nat} (h : n < k) (hk : k < 2 ^ 63) :
    (Loop.mk (.ofNat n - .ofNat k)).isSingle ∧
      (Loop.mk (.ofNat n - .ofNat k)).absolute (.ofNat k) = ⟨.ofNat n⟩ := by
  have hint : (Int64.ofNat n - Int64.ofNat k).toInt = (n : Int) - k := by
    rw [Int64.toInt_sub, Int64.toInt_ofNat_of_lt (by omega), Int64.toInt_ofNat_of_lt hk]
    exact Int.bmod_eq_of_le (by omega) (by omega)
  have hneg : Int64.ofNat n - Int64.ofNat k < 0 :=
    Int64.lt_iff_toInt_lt.2 (by rw [hint]; exact Int.sub_neg_of_lt (Int.ofNat_lt.2 h))
  have hrelative : (Loop.mk (.ofNat n - .ofNat k)).isRelative = true := decide_eq_true hneg
  constructor
  · rw [isSingle_iff, isNone, isAll]
    refine ⟨decide_eq_false fun heq => ?_, decide_eq_false fun heq => ?_⟩
    · exact absurd (show Loop.none.word < 0 from heq ▸ hneg) (by decide)
    · exact absurd (show Loop.all.word < 0 from heq ▸ hneg) (by decide)
  · rw [absolute, hrelative, if_pos rfl, Int64.add_comm, Int64.sub_add_cancel]

theorem exists_absolute_eq {l : Loop} {k : Nat} (hk : k < 2 ^ 63) (hsingle : l.isSingle)
    (h : Encoder.feasible l (.ofNat k)) : ∃ j < k, l.absolute (.ofNat k) = ⟨.ofNat j⟩ := by
  rw [Encoder.feasible, hsingle, Bool.not_true, Bool.false_or, Bool.and_eq_true,
    decide_eq_true_iff, decide_eq_true_iff] at h
  have hword := Int64.ofNat_toNatClampNeg _ h.1
  refine ⟨(l.absolute (.ofNat k)).word.toNatClampNeg, ?_, by rw [hword]⟩
  have hlt := h.2
  rw [← hword] at hlt
  exact (Int64.ofNat_lt_iff_lt (Int64.toNatClampNeg_lt _) hk).1 hlt

theorem check_of_not_isSingle {k : Nat} (hk : k < 2 ^ 63) {l : Loop} (hl : l.isSingle = false) :
    l.check (.ofNat k) = .ok () := by
  rw [check, if_neg (of_decide_eq_false (decide_ofNat_neg hk)), hl]
  rfl

theorem check_single {k j : Nat} (hk : k < 2 ^ 63) (hj : j < k) {l : Loop} (hl : l.isSingle)
    (habs : l.absolute (.ofNat k) = ⟨.ofNat j⟩) : l.check (.ofNat k) = .ok () := by
  have hneg : ¬ Int64.ofNat k < 0 := of_decide_eq_false (decide_ofNat_neg hk)
  have hneg' : ¬ Int64.ofNat j < 0 := of_decide_eq_false (decide_ofNat_neg (by omega))
  have hgt : ¬ Int64.ofNat j > Int64.ofNat k := fun hgt =>
    absurd ((Int64.ofNat_lt_iff_lt hk (by omega)).1 hgt) (by omega)
  rw [check, if_neg hneg, hl, habs, if_neg hneg', if_neg hgt]
  rfl

theorem exists_ofNat_of_check {l : Loop} {bound : Int64} (h : l.check bound = .ok ()) :
    ∃ b, b < 2 ^ 63 ∧ bound = .ofNat b := by
  unfold check at h
  split at h
  · cases h
  · rename_i hneg
    exact exists_ofNat (Int64.not_lt.1 hneg)

end Loop

namespace Encoding

theorem Interprets.of_vars {e e' : Encoding} (h : e'.vars = e.vars) {p : Atoms}
    (hp : e.Interprets p) : e'.Interprets p := by
  intro V t x hx
  obtain ⟨hx', hval⟩ := accepts_of_vars (fun _ _ hv => h ▸ hv) x hx
  rw [hp V t x hx', hval]

end Encoding

namespace Encoder

open Encoding

theorem Encodes.evaluate_eq {s : Encoder} {r : Encoded × Encoder} {keeps : Key → Prop} {ok : Bool}
    {φ : Atoms → View → Bool} (h : s.Encodes r keeps ok φ) (hr : r.1.error? = none)
    {p : Atoms} (hp : s.encoding.Interprets p) {ρ : Assignment} {V : View}
    (hV : r.2.encoding.Agrees ρ V) : r.2.encoding.graph.evaluate ρ r.1.expr = φ p V := by
  rw [Graph.evaluate_eq h.evolves.wf.encoding.graph ρ h.mem]
  exact (h.means hr p (hp.of_vars h.evolves.vars)).eval ρ V hV

variable {s : Encoder} {m : Machine}

theorem firstLoop_cons (m : Machine) (f : Formula) (k : Int64) (ρ : Assignment) (l : Int64)
    (ls : List Int64) (s : Encoder) :
    firstLoop m f k ρ (l :: ls) s =
      match (onLoop m f k ⟨l⟩ 0 true s).1.error? with
      | some e => (.error e, (onLoop m f k ⟨l⟩ 0 true s).2)
      | none =>
        if (onLoop m f k ⟨l⟩ 0 true s).2.encoding.graph.evaluate ρ
            (onLoop m f k ⟨l⟩ 0 true s).1.expr then
          (.ok ⟨l⟩, (onLoop m f k ⟨l⟩ 0 true s).2)
        else firstLoop m f k ρ ls (onLoop m f k ⟨l⟩ 0 true s).2 := by
  rw [firstLoop, bind_apply]
  cases (onLoop m f k ⟨l⟩ 0 true s).1.error? with
  | some e => rfl
  | none =>
    dsimp only
    rw [bind_apply]
    split <;> rename_i h
    · exact (if_pos h).symm
    · exact (if_neg h).symm

theorem firstLoop_spec (f : Formula) (k : Int64) (ρ : Assignment) (ls : List Int64)
    (wf : s.WellFormed) (hm : m.Over s.encoding) {p : Atoms} (hp : s.encoding.Interprets p) :
    s.Leads (firstLoop m f k ρ ls s).2 ∧ ∀ l, (firstLoop m f k ρ ls s).1 = .ok l →
      ∀ V, (firstLoop m f k ρ ls s).2.encoding.Agrees ρ V →
        (l = .none ∧ ∀ t ∈ ls, onLoopValue m f k 0 true s.encoding ⟨t⟩ p V = false) ∨
        ∃ t ∈ ls, l = ⟨t⟩ ∧ onLoopValue m f k 0 true s.encoding ⟨t⟩ p V = true := by
  induction ls generalizing s with
  | nil =>
    refine ⟨.refl wf, fun l hl V _ => .inl ⟨?_, nofun⟩⟩
    cases hl
    rfl
  | cons t ls ih =>
    have hr := onLoop_encodes f k 0 true wf hm ⟨t⟩
    rw [firstLoop_cons]
    cases he : (onLoop m f k ⟨t⟩ 0 true s).1.error? with
    | some e => exact ⟨hr.evolves, nofun⟩
    | none =>
      dsimp only
      split <;> rename_i heval
      · refine ⟨hr.evolves, fun l hl V hV => .inr ⟨t, List.mem_cons_self, ?_, ?_⟩⟩
        · cases hl
          rfl
        · rw [← hr.evaluate_eq he hp hV]
          exact heval
      · obtain ⟨hleads, hrest⟩ := ih hr.evolves.wf (hm.of_le wf.encoding hr.evolves.grows)
          (hp.of_vars hr.evolves.vars)
        refine ⟨hr.evolves.trans hleads, fun l hl V hV => ?_⟩
        -- the value of the first loop was found on an earlier encoder, which the rest only extends
        have hfirst : onLoopValue m f k 0 true s.encoding ⟨t⟩ p V = false := by
          rw [← hr.evaluate_eq he hp (hV.of_le hr.evolves.wf.encoding hleads.grows)]
          exact Bool.eq_false_iff.2 heval
        simp only [onLoopValue_of_leads f k 0 true wf hm hr.evolves] at hrest
        refine (hrest l hl V hV).imp ?_ ?_
        · rintro ⟨hl, hall⟩
          exact ⟨hl, List.forall_mem_cons.2 ⟨hfirst, hall⟩⟩
        · rintro ⟨t', ht', htl, hval⟩
          exact ⟨t', List.mem_cons_of_mem t ht', htl, hval⟩

theorem firstLoop_succeeds (f : Formula) (k : Int64) (ρ : Assignment) (ls : List Int64)
    (wf : s.WellFormed) (hm : m.Over s.encoding)
    (hok : ∀ t ∈ ls, onLoopOk f k 0 true s.accepts ⟨t⟩) :
    ∃ lb, (firstLoop m f k ρ ls s).1 = .ok lb := by
  induction ls generalizing s with
  | nil => exact ⟨.none, rfl⟩
  | cons t ls ih =>
    have hr := onLoop_encodes f k 0 true wf hm ⟨t⟩
    rw [firstLoop_cons, hr.succeeds.2 (hok t List.mem_cons_self)]
    dsimp only
    split
    · exact ⟨⟨t⟩, rfl⟩
    · refine ih hr.evolves.wf (hm.of_le wf.encoding hr.evolves.grows) fun u hu => ?_
      rw [hr.evolves.accepts_eq]
      exact hok u (List.mem_cons_of_mem t hu)

theorem witness_eq (m : Machine) (f : Formula) (k : Int64) (l : Loop) (ρ : Assignment)
    (s : Encoder) :
    witness m f k l ρ s =
      if !l.isAll then (.ok (l.absolute k), s)
      else
        let s' := (onTable (Table.negation f) s).2
        match (onStraight m f.negation k 0 true s').1.error? with
        | some e => (.error e, (onStraight m f.negation k 0 true s').2)
        | none =>
          if (onStraight m f.negation k 0 true s').2.encoding.graph.evaluate ρ
              (onStraight m f.negation k 0 true s').1.expr then
            (.ok .none, (onStraight m f.negation k 0 true s').2)
          else firstLoop m f.negation k ρ (times 0 k) (onStraight m f.negation k 0 true s').2 := by
  unfold witness
  cases l.isAll with
  | false => rfl
  | true =>
    have hnegation : (onTable (Table.negation f) s).1 = f.negation := Table.negation_fst f s.table
    simp only [Bool.not_true, Bool.false_eq_true, if_false]
    rw [bind_apply, hnegation, bind_apply]
    cases (onStraight m f.negation k 0 true (onTable (Table.negation f) s).2).1.error? with
    | some e => rfl
    | none =>
      dsimp only
      rw [bind_apply]
      split <;> rename_i h
      · exact (if_pos h).symm
      · exact (if_neg h).symm

theorem Evolves.atoms_eq {s' : Encoder} (h : s.Leads s') : s'.encoding.atoms = s.encoding.atoms := by
  funext V t x
  exact conditionValue_of_vars_eq h.vars _ _ x

theorem violationValue_of_leads {s' : Encoder} (wf : s.WellFormed) (hm : m.Over s.encoding)
    (h : s.Leads s') (f : Formula) (k : Int64) (l : Loop) (p : Atoms) (V : View) :
    violationValue m f k l s'.encoding p V = violationValue m f k l s.encoding p V := by
  unfold violationValue onPathsValue onAllValue
  simp only [onLoopValue_of_leads f.negation k 0 true wf hm h]

section

variable (m : Machine) (f : Formula) (k : Int64) (e : Encoding) (p : Atoms) (V : View)
  (acc : Expr → Bool)

theorem violationValue_none :
    violationValue m f k .none e p V = onStraightValue m f.negation k 0 true p V := rfl

theorem violationValue_all :
    violationValue m f k .all e p V = onAllValue m f.negation k 0 true e p V := rfl

theorem violationValue_single {l : Loop} (hl : l.isSingle) :
    violationValue m f k l e p V = onLoopValue m f.negation k 0 true e (l.absolute k) p V := by
  obtain ⟨hnone, hall⟩ := Loop.isSingle_iff.1 hl
  rw [violationValue, onPathsValue, hnone, hall]
  rfl

theorem violationOk_none :
    violationOk m f k .none acc =
      ((checkSemantics k .none 0).isOk && onStraightOk m f.negation k 0 true acc) := rfl

theorem violationOk_all :
    violationOk m f k .all acc =
      ((checkSemantics k .all 0).isOk && onAllOk m f.negation k 0 true acc) := rfl

theorem violationOk_single {l : Loop} (hl : l.isSingle) :
    violationOk m f k l acc =
      ((checkSemantics k l 0).isOk && onLoopOk f.negation k 0 true acc (l.absolute k)) := by
  obtain ⟨hnone, hall⟩ := Loop.isSingle_iff.1 hl
  rw [violationOk, onPathsOk, hnone, hall]
  rfl

end

theorem checkSemantics_none {k : Nat} (hk : k < 2 ^ 63) :
    (checkSemantics (.ofNat k) .none 0).isOk := by
  rw [checkSemantics, Loop.check_of_not_isSingle hk rfl]
  rfl

theorem checkSemantics_single {k j : Nat} (hk : k < 2 ^ 63) (hj : j < k) {l : Loop}
    (hl : l.isSingle) (habs : l.absolute (.ofNat k) = ⟨.ofNat j⟩) :
    (checkSemantics (.ofNat k) l 0).isOk := by
  have hge : decide (Int64.ofNat j ≥ Int64.ofNat k) = false := decide_eq_false fun hge =>
    absurd ((Int64.ofNat_le_iff_le hk (by omega)).1 hge) (by omega)
  rw [checkSemantics, Loop.check_single hk hj hl habs, hl, habs, hge]
  rfl

theorem witness_leads (f : Formula) (k : Int64) (l : Loop) (ρ : Assignment) (wf : s.WellFormed)
    (hm : m.Over s.encoding) : s.Leads (witness m f k l ρ s).2 := by
  rw [witness_eq]
  split
  · exact .refl wf
  · have htable := onTable_evolves wf (Table.negation f) (fun _ => False)
    have hto := htable.trans (onStraight_encodes f.negation k 0 true htable.wf hm).evolves
    dsimp only
    cases (onStraight m f.negation k 0 true (onTable (Table.negation f) s).2).1.error? with
    | some e => exact hto
    | none =>
      dsimp only
      split
      · exact hto
      · exact hto.trans (firstLoop_spec f.negation k ρ (times 0 k) hto.wf
          (hm.of_le wf.encoding hto.grows) (Encoding.interprets_atoms _)).1

theorem witness_succeeds {f : Formula} {k : Int64} {l : Loop} (ρ : Assignment) (wf : s.WellFormed)
    (hm : m.Over s.encoding) (hok : violationOk m f k l s.accepts) :
    ∃ lb, (witness m f k l ρ s).1 = .ok lb := by
  rw [witness_eq]
  split
  · exact ⟨_, rfl⟩
  · rename_i hall
    rw [Bool.not_eq_true', Bool.not_eq_false] at hall
    obtain rfl : l = .all := of_decide_eq_true hall
    rw [violationOk_all, onAllOk, Bool.and_eq_true, Bool.and_eq_true, List.all_eq_true] at hok
    have htable := onTable_evolves wf (Table.negation f) (fun _ => False)
    have hr := onStraight_encodes f.negation k 0 true htable.wf hm
    have hto := htable.trans hr.evolves
    dsimp only
    rw [hr.succeeds.2 (htable.accepts_eq ▸ hok.2.1)]
    dsimp only
    split
    · exact ⟨_, rfl⟩
    · exact firstLoop_succeeds f.negation k ρ _ hto.wf (hm.of_le wf.encoding hto.grows)
        (hto.accepts_eq ▸ hok.2.2)

section

variable (f : Formula) {k : Nat} (hk : k + 1 < 2 ^ 63) {l lb : Loop} {ρ : Assignment}
  (wf : s.WellFormed) (hm : m.Over s.encoding) {p : Atoms} (hp : s.encoding.Interprets p) {V : View}

include hk

theorem violationOk_ofNat {j : Nat} (hj : j < k) {acc : Expr → Bool}
    (hok : onLoopOk f.negation (.ofNat k) 0 true acc ⟨.ofNat j⟩) :
    violationOk m f (.ofNat k) ⟨.ofNat j⟩ acc := by
  have hsingle : (Loop.mk (.ofNat j)).isSingle := Loop.isSingle_ofNat (by omega)
  have habs := Loop.absolute_ofNat (show j < 2 ^ 63 by omega) (.ofNat k)
  rw [violationOk_single _ _ _ _ hsingle, habs]
  exact Bool.and_eq_true_iff.2 ⟨checkSemantics_single (by omega) hj hsingle habs, hok⟩

theorem violationValue_ofNat {j : Nat} (hj : j < k) (e : Encoding) :
    violationValue m f (.ofNat k) ⟨.ofNat j⟩ e p V =
      onLoopValue m f.negation (.ofNat k) 0 true e ⟨.ofNat j⟩ p V := by
  rw [violationValue_single _ _ _ _ _ _ (Loop.isSingle_ofNat (by omega)),
    Loop.absolute_ofNat (by omega)]

include wf hm hp

/-- If all loops were considered, one of the disjuncts of the violation is found to hold. -/
theorem witness_all_spec (hlb : (witness m f (.ofNat k) .all ρ s).1 = .ok lb)
    (hV : (witness m f (.ofNat k) .all ρ s).2.encoding.Agrees ρ V)
    (hok : violationOk m f (.ofNat k) .all s.accepts)
    (hval : violationValue m f (.ofNat k) .all s.encoding p V) :
    (lb = .none ∨ ∃ j < k, lb = ⟨.ofNat j⟩) ∧ violationOk m f (.ofNat k) lb s.accepts ∧
      violationValue m f (.ofNat k) lb s.encoding p V := by
  have hall : Loop.all.isAll = true := decide_eq_true rfl
  have htable := onTable_evolves wf (Table.negation f) (fun _ => False)
  have hr := onStraight_encodes f.negation (.ofNat k) 0 true htable.wf hm
  have hto := htable.trans hr.evolves
  -- the disjunct without a loop is tried first; if it fails, that of some loop holds, and the first
  -- such loop is taken
  rw [violationOk_all, onAllOk, Bool.and_eq_true, Bool.and_eq_true, List.all_eq_true] at hok
  rw [witness_eq, hall] at hlb hV
  simp only [Bool.not_true, Bool.false_eq_true, if_false] at hlb hV
  cases he : (onStraight m f.negation (.ofNat k) 0 true
      (onTable (Table.negation f) s).2).1.error? with
  | some e =>
    rw [he] at hlb
    cases hlb
  | none =>
    rw [he] at hlb hV
    dsimp only at hlb hV
    split at hlb <;> rename_i heval
    · cases hlb
      rw [if_pos heval] at hV
      rw [violationOk_none, violationValue_none, ← hr.evaluate_eq he hp hV]
      exact ⟨.inl rfl, Bool.and_eq_true_iff.2 ⟨checkSemantics_none (by omega), hok.2.1⟩, heval⟩
    · rw [if_neg heval] at hV
      obtain ⟨hleads, hfound⟩ := firstLoop_spec f.negation (.ofNat k) ρ (times 0 (.ofNat k))
        hto.wf (hm.of_le wf.encoding hto.grows) (hp.of_vars hto.vars)
      have hstraight : onStraightValue m f.negation (.ofNat k) 0 true p V = false := by
        rw [← hr.evaluate_eq he hp (hV.of_le hto.wf.encoding hleads.grows)]
        exact Bool.eq_false_iff.2 heval
      simp only [onLoopValue_of_leads f.negation _ 0 true wf hm hto] at hfound
      rw [violationValue_all, onAllValue, hstraight, Bool.false_or, List.any_eq_true] at hval
      rcases hfound lb hlb V hV with ⟨-, hnone⟩ | ⟨t, ht, rfl, hloop⟩
      · obtain ⟨t, ht, htrue⟩ := hval
        rw [hnone t ht] at htrue
        cases htrue
      · have hokt := hok.2.2 t ht
        rw [times_zero (by omega)] at ht
        obtain ⟨j, hj, rfl⟩ := List.mem_map.1 ht
        rw [List.mem_range'_1] at hj
        have hjk : j < k := by omega
        exact ⟨.inr ⟨j, hjk, rfl⟩, violationOk_ofNat f hk hjk hokt,
          (violationValue_ofNat f hk hjk _).trans hloop⟩

/-- Whatever loop is found, the formula is violated on it. -/
theorem witness_spec (hfeasible : feasible l (.ofNat k))
    (hlb : (witness m f (.ofNat k) l ρ s).1 = .ok lb)
    (hV : (witness m f (.ofNat k) l ρ s).2.encoding.Agrees ρ V)
    (hok : violationOk m f (.ofNat k) l s.accepts)
    (hval : violationValue m f (.ofNat k) l s.encoding p V) :
    (lb = .none ∨ ∃ j < k, lb = ⟨.ofNat j⟩) ∧ violationOk m f (.ofNat k) lb s.accepts ∧
      violationValue m f (.ofNat k) lb s.encoding p V := by
  cases hall : l.isAll with
  | true =>
    obtain rfl : l = .all := of_decide_eq_true hall
    exact witness_all_spec f hk wf hm hp hlb hV hok hval
  | false =>
    rw [witness_eq, hall] at hlb
    cases hlb
    cases hnone : l.isNone with
    | true =>
      obtain rfl : l = .none := of_decide_eq_true hnone
      exact ⟨.inl rfl, hok, hval⟩
    | false =>
      have hsingle := Loop.isSingle_iff.2 ⟨hnone, hall⟩
      obtain ⟨j, hj, habs⟩ := Loop.exists_absolute_eq (by omega) hsingle hfeasible
      rw [violationOk_single _ _ _ _ hsingle, habs, Bool.and_eq_true] at hok
      rw [violationValue_single _ _ _ _ _ _ hsingle, habs] at hval
      rw [habs, violationValue_ofNat f hk hj]
      exact ⟨.inr ⟨j, hj, rfl⟩, violationOk_ofNat f hk hj hok.2, hval⟩

end

end Encoder

end Lasso
