import Lasso.Proofs.Bounded.Times
import Lasso.Proofs.Formula.EarlyJudgement

/-! # Values on looping words

The value of a formula at a time of a looping path is whether it holds there on the infinite word
of the path, where until and its dual are judged early.
-/

namespace Lasso

set_option autoImplicit false

theorem BinaryOp.apply_iff {op : BinaryOp} (hfuture : op.isFuture) (hop : op.isTemporal = false)
    {P Q : Nat → Prop} {n : Nat} {a b : Bool} (ha : a ↔ P n) (hb : b ↔ Q n) :
    op.apply a b ↔ op.Holds P Q n := by
  cases op with
  | and => exact (Bool.and_eq_true a b).to_iff.trans (and_congr ha hb)
  | or => exact (Bool.or_eq_true a b).to_iff.trans (or_congr ha hb)
  | xor => exact bne_iff_ne.trans (Bool.eq_iff_iff.not.trans (not_congr (iff_congr ha hb)))
  | implies =>
    change (!a || b) ↔ (P n → Q n)
    rw [← ha, ← hb]
    cases a <;> simp
  | iff => exact beq_iff_eq.trans (Bool.eq_iff_iff.trans (iff_congr ha hb))
  | untl | releases => cases hop
  | _ => cases hfuture

namespace Encoder

section

variable {k l : Nat} (hlk : l < k) (hk : k < 2 ^ 63)

include hk

theorem decide_outside {n : Nat} (hn : n < k) :
    decide (Int64.ofNat k = 0 ∨ Int64.ofNat n > Int64.ofNat k) = false := by
  refine decide_eq_false ?_
  rintro (hzero | hgt)
  · have := (ofNat_inj (b := 0) hk (by omega)).1 hzero
    omega
  · have := (Int64.ofNat_lt_iff_lt hk (by omega)).1 hgt
    omega

theorem successor_eq (hloop : ¬ (Loop.mk (.ofNat l)).isNone) {n : Nat} (hn : n < k) :
    (Loop.mk (.ofNat l)).successor (.ofNat k) (.ofNat n) =
      Int64.ofNat (if n + 1 < k then n + 1 else l) := by
  unfold Loop.successor
  rw [ofNat_sub_one (by omega)]
  have hlt : Int64.ofNat n < Int64.ofNat (k - 1) ↔ n + 1 < k := by
    rw [Int64.ofNat_lt_iff_lt (by omega) (by omega)]
    omega
  by_cases hnext : n + 1 < k
  · rw [if_pos hnext, Int64.ofNat_add]
    simp [hlt.2 hnext]
  · rw [if_neg hnext]
    simp [hloop, mt hlt.1 hnext]

include hlk

theorem times_eq {n b : Nat} (hn : n < k) (hb : b ≤ k) :
    times (min (Int64.ofNat n) (Int64.ofNat l)) (Int64.ofNat b) =
      (List.range' (min n l) (b - min n l)).map Int64.ofNat := by
  rw [ofNat_min (by omega) (by omega), times_ofNat (by omega) (by omega)]

/-- On a looping path, formulas have the values they have on its word if until and its dual are
judged early. -/
theorem loopingValue_iff (hloop : ¬ (Loop.mk (.ofNat l)).isNone) {p : Int64 → Expr → Bool}
    {f : Formula} (hf : f.isFuture) {n : Nat} (hn : n < k) :
    loopingValue p (.ofNat k) ⟨.ofNat l⟩ f (.ofNat n) ↔
      f.HoldsEarly l (fun j x => p (.ofNat (wrap k l j)) x) n := by
  have hword : ∀ x, Recurs k l fun j => p (.ofNat (wrap k l j)) x := fun x =>
    recurs_wrap hlk fun j => p (.ofNat j) x
  have hrange : ∀ n m, m ∈ List.range' (min n l) (k - min n l) ↔ m < k ∧ min n l ≤ m := by
    intro n m
    rw [List.mem_range'_1]
    omega
  -- what is encoded at a time ranges over the rest of the path; the word repeats from the loop on,
  -- so that the same range decides there
  induction f generalizing n with
  | atom e =>
    rw [loopingValue, decide_outside hk hn, Bool.not_false, Bool.true_and]
    rw [Formula.HoldsEarly, wrap, if_pos hn]
  | unary op f ih =>
    have hf' := hf
    simp only [Formula.isFuture, Bool.and_eq_true] at hf'
    have hrecurs := Formula.recurs_holdsEarly hword hf'.2
    have ih := fun m (hm : m < k) => ih hf'.2 hm
    cases op with
    | not =>
      rw [loopingValue, decide_outside hk hn, Bool.not_false, Bool.true_and, Bool.not_eq_true']
      exact Bool.eq_false_iff.trans (not_congr (ih n hn))
    | next =>
      rw [loopingValue, decide_outside hk hn, Bool.not_false, Bool.true_and,
        successor_eq hk hloop hn]
      exact (ih _ (by split <;> omega)).trans (hrecurs.next_iff hlk hn).symm
    | globally =>
      rw [loopingValue, decide_outside hk hn, Bool.not_false, Bool.true_and,
        times_eq hlk hk hn (Nat.le_refl k), List.all_map, List.all_eq_true]
      refine Iff.trans ?_ (hrecurs.globally_iff hlk hn).symm
      simp only [hrange, and_imp]
      exact forall₃_congr fun m hmk _ => ih m hmk
    | eventually =>
      rw [loopingValue, decide_outside hk hn, Bool.not_false, Bool.true_and,
        times_eq hlk hk hn (Nat.le_refl k), List.any_map, List.any_eq_true]
      refine Iff.trans ?_ (hrecurs.eventually_iff hlk hn).symm
      simp only [hrange, and_assoc]
      exact exists_congr fun m => and_congr_right fun hmk => and_congr_right fun _ => ih m hmk
    | _ => cases hf'.1
  | binary op f g ihf ihg =>
    have hf' := hf
    simp only [Formula.isFuture, Bool.and_eq_true] at hf'
    obtain ⟨hop, hff, hfg⟩ := hf'
    have hrecurs := Formula.recurs_holdsEarly hword hfg
    have ihf := fun m (hm : m < k) => ihf hff hm
    have ihg := fun m (hm : m < k) => ihg hfg hm
    have hlast : min n l + (k - 1 - min n l) = k - 1 := by omega
    cases op with
    | untl =>
      rw [loopingValue, decide_outside hk hn, Bool.not_false, Bool.true_and,
        times_eq hlk hk hn (Nat.le_refl k), untilValue_iff,
        show min n l + (k - min n l) = k by omega]
      refine Iff.trans ?_ (hrecurs.untl_iff hlk (Nat.min_le_right n l)).symm
      refine exists_congr fun m => and_congr_right fun hmk => and_congr_right fun hm =>
        and_congr (ihg m hmk) ?_
      exact forall₃_congr fun j _ hjm => ihf j (Nat.lt_trans hjm hmk)
    | releases =>
      rw [loopingValue, decide_outside hk hn, Bool.not_false, Bool.true_and,
        ofNat_sub_one (by omega), times_eq hlk hk hn (Nat.sub_le k 1)]
      have hfold := @releaseValue_iff (loopingValue p (.ofNat k) ⟨.ofNat l⟩ g)
        (loopingValue p (.ofNat k) ⟨.ofNat l⟩ f) (min n l) (k - 1 - min n l)
      rw [hlast, Nat.sub_add_cancel (by omega)] at hfold
      refine (hfold.trans ?_).trans (hrecurs.releases_iff hlk (Nat.min_le_right n l)).symm
      refine forall₃_congr fun m hmk hm => or_congr (ihg m hmk) ?_
      exact exists_congr fun j => and_congr_right fun _ => and_congr_right fun hjm =>
        ihf j (Nat.lt_trans hjm hmk)
    | and | or | xor | implies | iff =>
      rw [loopingValue, decide_outside hk hn, Bool.not_false, Bool.true_and]
      · exact BinaryOp.apply_iff rfl rfl (ihf n hn) (ihg n hn)
      · exact BinaryOp.noConfusion
      · exact BinaryOp.noConfusion
    | _ => cases hop

end

theorem loopingOk_of_isFuture {acc : Expr → Bool} {f : Formula} (hf : f.isFuture)
    (hacc : ∀ x ∈ f.atoms, acc x) (bound : Int64) (loop : Loop) (time : Int64) :
    loopingOk acc bound loop f time := by
  induction f generalizing time with
  | atom e =>
    rw [loopingOk, Bool.or_eq_true]
    exact .inr (hacc e List.mem_cons_self)
  | unary op f ih =>
    simp only [Formula.isFuture, Bool.and_eq_true] at hf
    have ih := ih hf.2 hacc
    simp only [loopingOk, Bool.or_eq_true]
    right
    cases op with
    | not => exact ih time
    | next => exact ih _
    | globally | eventually => exact List.all_eq_true.2 fun t _ => ih t
    | _ => cases hf.1
  | binary op f g ihf ihg =>
    simp only [Formula.isFuture, Bool.and_eq_true] at hf
    have ihf := ihf hf.2.1 fun x hx => hacc x (List.mem_append_left _ hx)
    have ihg := ihg hf.2.2 fun x hx => hacc x (List.mem_append_right _ hx)
    have hboth : ∀ ts : List Int64,
        ts.all fun t => loopingOk acc bound loop g t && loopingOk acc bound loop f t := fun ts =>
      List.all_eq_true.2 fun t _ => Bool.and_eq_true_iff.2 ⟨ihg t, ihf t⟩
    simp only [loopingOk, Bool.or_eq_true]
    right
    cases op with
    | untl => exact hboth _
    | releases => exact Bool.and_eq_true_iff.2 ⟨ihg _, hboth _⟩
    | and | or | xor | implies | iff =>
      exact Bool.and_eq_true_iff.2 ⟨rfl, Bool.and_eq_true_iff.2 ⟨ihf time, ihg time⟩⟩
    | _ => cases hf.1

end Encoder

end Lasso
