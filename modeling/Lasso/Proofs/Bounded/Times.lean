import Lasso.Proofs.Bounded.Value

/-! # Times of a path

The times of a path are words, but as long as they are small they are natural numbers, and what is
unfolded over them is a statement about natural numbers.
-/

namespace Lasso

set_option autoImplicit false

theorem ofNat_inj {a b : Nat} (ha : a < 2 ^ 63) (hb : b < 2 ^ 63) :
    Int64.ofNat a = Int64.ofNat b ↔ a = b := by
  rw [← Int64.toInt_inj, Int64.toInt_ofNat_of_lt ha, Int64.toInt_ofNat_of_lt hb, Int.ofNat_inj]

theorem ofNat_sub_one {a : Nat} (h : 0 < a) : Int64.ofNat a - 1 = Int64.ofNat (a - 1) := by
  obtain ⟨b, rfl⟩ : ∃ b, a = b + 1 := ⟨a - 1, by omega⟩
  rw [Int64.ofNat_add, Nat.add_sub_cancel]
  exact Int64.add_sub_cancel _ _

theorem ofNat_min {a b : Nat} (ha : a < 2 ^ 63) (hb : b < 2 ^ 63) :
    min (Int64.ofNat a) (Int64.ofNat b) = Int64.ofNat (min a b) := by
  rw [Nat.min_def, show min (Int64.ofNat a) (Int64.ofNat b) =
    if Int64.ofNat a ≤ Int64.ofNat b then Int64.ofNat a else Int64.ofNat b from rfl,
    apply_ite Int64.ofNat]
  simp only [Int64.ofNat_le_iff_le ha hb]

/-- A time of the global timeline, of which it does not matter how it is written. -/
theorem toUInt64_ofNat_add (a b : Nat) :
    (Int64.ofNat a + Int64.ofNat b).toUInt64 = UInt64.ofNat (b + a) := by
  rw [← Int64.ofNat_add, Nat.add_comm]
  rfl

theorem decide_ofNat_neg {n : Nat} (h : n < 2 ^ 63) : decide (Int64.ofNat n < 0) = false :=
  decide_eq_false fun hneg => Nat.not_lt_zero n ((Int64.ofNat_lt_iff_lt h (by omega)).1 hneg)

theorem exists_ofNat {k : Int64} (h : 0 ≤ k) : ∃ n : Nat, n < 2 ^ 63 ∧ k = .ofNat n :=
  ⟨k.toNatClampNeg, Int64.toNatClampNeg_lt k, (Int64.ofNat_toNatClampNeg k h).symm⟩

theorem ofNat_eq_maxValue_iff {n : Nat} (hn : n < 2 ^ 63) :
    Int64.ofNat n = Int64.maxValue ↔ n + 1 = 2 ^ 63 := by
  have hmax : Int64.maxValue = .ofNat (2 ^ 63 - 1) := by decide
  rw [hmax, ofNat_inj hn (by omega)]
  omega

theorem Loop.isSingle_iff {l : Loop} : l.isSingle ↔ l.isNone = false ∧ l.isAll = false := by
  unfold isSingle isNone isAll
  rw [Bool.and_eq_true, decide_eq_true_iff, decide_eq_true_iff, decide_eq_false_iff_not,
    decide_eq_false_iff_not]

/-- The words of the sentinels are the two largest. -/
theorem Loop.isSingle_ofNat {n : Nat} (h : n < 2 ^ 63 - 2) : (Loop.mk (.ofNat n)).isSingle := by
  have hne : ∀ c < 2 ^ 63, n < c → Loop.mk (.ofNat n) ≠ ⟨.ofNat c⟩ := fun c hc hlt heq =>
    absurd ((ofNat_inj (by omega) hc).1 (congrArg Loop.word heq)) (by omega)
  have hnone : Int64.maxValue - 1 = .ofNat (2 ^ 63 - 2) := by decide
  have hall : Int64.maxValue = .ofNat (2 ^ 63 - 1) := by decide
  rw [isSingle_iff, isNone, isAll, none, all, hnone, hall]
  exact ⟨decide_eq_false (hne (2 ^ 63 - 2) (by omega) h),
    decide_eq_false (hne (2 ^ 63 - 1) (by omega) (by omega))⟩

namespace Encoder

theorem timesFrom_ofNat (s c : Nat) :
    timesFrom (Int64.ofNat s) c = (List.range' s c).map Int64.ofNat := by
  induction c generalizing s with
  | zero => rfl
  | succ c ih =>
    rw [timesFrom, List.range'_succ, List.map_cons, ← ih, Int64.ofNat_add]
    rfl

theorem times_ofNat {a b : Nat} (ha : a < 2 ^ 63) (hb : b < 2 ^ 63) :
    times (Int64.ofNat a) (Int64.ofNat b) = (List.range' a (b - a)).map Int64.ofNat := by
  rw [times, Int64.toInt_ofNat_of_lt ha, Int64.toInt_ofNat_of_lt hb, timesFrom_ofNat]
  congr 2
  omega

theorem times_zero {k : Nat} (hk : k < 2 ^ 63) :
    times 0 (.ofNat k) = (List.range' 0 k).map Int64.ofNat :=
  @times_ofNat 0 k (by omega) hk

theorem untilValue_iff {goal wait : Int64 → Bool} {s c : Nat} :
    untilValue goal wait ((List.range' s c).map Int64.ofNat) false ↔
      ∃ m < s + c, s ≤ m ∧ goal (.ofNat m) ∧ ∀ j, s ≤ j → j < m → wait (.ofNat j) := by
  induction c generalizing s with
  | zero =>
    simp only [untilValue, List.range'_zero, List.map_nil, List.foldr_nil, Bool.false_eq_true,
      false_iff]
    rintro ⟨m, hm, hsm, -⟩
    omega
  | succ c ih =>
    rw [List.range'_succ, List.map_cons, untilValue, List.foldr_cons, ← untilValue]
    rw [Bool.or_eq_true, Bool.and_eq_true, ih]
    constructor
    · rintro (hg | ⟨hw, m, hm, hsm, hg, hwait⟩)
      · exact ⟨s, by omega, Nat.le_refl s, hg, fun j hj hjs => by omega⟩
      · refine ⟨m, by omega, by omega, hg, fun j hj hjm => ?_⟩
        rcases Nat.eq_or_lt_of_le hj with rfl | hlt
        · exact hw
        · exact hwait j hlt hjm
    · rintro ⟨m, hm, hsm, hg, hwait⟩
      rcases Nat.eq_or_lt_of_le hsm with rfl | hlt
      · exact .inl hg
      · exact .inr ⟨hwait s (Nat.le_refl s) hlt, m, by omega, hlt, hg,
          fun j hj hjm => hwait j (by omega) hjm⟩

theorem releaseValue_iff {goal wait : Int64 → Bool} {s c : Nat} :
    releaseValue goal wait ((List.range' s c).map Int64.ofNat) (goal (.ofNat (s + c))) ↔
      ∀ m < s + c + 1, s ≤ m → goal (.ofNat m) ∨ ∃ j, s ≤ j ∧ j < m ∧ wait (.ofNat j) := by
  induction c generalizing s with
  | zero =>
    simp only [releaseValue, List.range'_zero, List.map_nil, List.foldr_nil, Nat.add_zero]
    constructor
    · intro h m hm hsm
      obtain rfl : m = s := by omega
      exact .inl h
    · intro h
      rcases h s (by omega) (Nat.le_refl s) with hg | ⟨j, hj, hjs, -⟩
      · exact hg
      · omega
  | succ c ih =>
    rw [List.range'_succ, List.map_cons, releaseValue, List.foldr_cons, ← releaseValue,
      show s + (c + 1) = s + 1 + c by omega, Bool.and_eq_true, Bool.or_eq_true, ih]
    constructor
    · rintro ⟨hg, hlater⟩ m hm hsm
      rcases Nat.eq_or_lt_of_le hsm with rfl | hlt
      · exact .inl hg
      · rcases hlater with hw | hlater
        · exact .inr ⟨s, Nat.le_refl s, hlt, hw⟩
        · exact (hlater m hm hlt).imp_right fun ⟨j, hj, hjm, hw⟩ => ⟨j, by omega, hjm, hw⟩
    · intro h
      constructor
      · rcases h s (by omega) (Nat.le_refl s) with hg | ⟨j, hj, hjs, -⟩
        · exact hg
        · omega
      · by_cases hw : wait (.ofNat s) = true
        · exact .inl hw
        · refine .inr fun m hm hsm => (h m hm (by omega)).imp_right ?_
          rintro ⟨j, hj, hjm, hwj⟩
          refine ⟨j, ?_, hjm, hwj⟩
          rcases Nat.eq_or_lt_of_le hj with rfl | hlt
          · exact absurd hwj hw
          · exact hlt

end Encoder

end Lasso
