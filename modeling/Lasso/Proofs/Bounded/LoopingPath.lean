import Lasso.Proofs.Bounded.LoopingWord
import Lasso.Proofs.Bounded.Semantics

/-! # Looping paths of a machine

A path that loops describes an infinite word of the values of all variables.  The semantics of a
formula on paths with a given loop says that the state is repeated, that every obligation is met on
the loop, and that the formula holds on the word.
-/

namespace Lasso

set_option autoImplicit false

/-- The values of a path from a time on that loops, by position of the infinite word. -/
def View.lasso (V : View) (offset k l : Nat) (n : Nat) : Letter := V.word (offset + wrap k l n)

namespace Encoding

/-- Atomic propositions as predicates on the positions of a word. -/
def along (e : Encoding) (w : Nat → Letter) (n : Nat) (x : Expr) : Prop :=
  e.conditionValue (w n) (w n) x

theorem atoms_onPath (e : Encoding) (V : View) (offset n : Nat) (x : Expr) :
    e.atoms.onPath (.ofNat offset) V (.ofNat n) x =
      e.conditionValue (V.word (offset + n)) (V.word (offset + n)) x := by
  rw [Atoms.onPath, toUInt64_ofNat_add]
  rfl

theorem recurs_along (e : Encoding) (V : View) (offset : Nat) {k l : Nat} (hlk : l < k) (x : Expr) :
    Recurs k l (e.along (V.lasso offset k l) · x) :=
  recurs_wrap hlk fun j => e.conditionValue (V.word (offset + j)) (V.word (offset + j)) x

end Encoding

namespace Encoder

open Encoding

section

variable {k l : Nat} (hlk : l < k)

include hlk

/-- A formula has the value on a looping path that it has on the word of the path if until and its
dual are judged early. -/
theorem loopingValue_atoms_iff (hk : k < 2 ^ 63) (hloop : ¬ (Loop.mk (.ofNat l)).isNone)
    (e : Encoding) (V : View) (offset : Nat) {f : Formula} (hf : f.isFuture) {n : Nat}
    (hn : n < k) :
    loopingValue (e.atoms.onPath (.ofNat offset) V) (.ofNat k) ⟨.ofNat l⟩ f (.ofNat n) ↔
      f.HoldsEarly l (e.along (V.lasso offset k l)) n := by
  rw [loopingValue_iff hlk hk hloop hf hn]
  simp only [atoms_onPath]
  exact Iff.rfl

theorem loopingArgs_ofNat {o t : Nat} (hk : o + k < 2 ^ 63) (ht : t < k)
    (hloop : (Loop.mk (.ofNat l)).isSingle) :
    loopingArgs (.ofNat t) (.ofNat k) ⟨.ofNat l⟩ (.ofNat o) := by
  have hle : decide (Int64.ofNat l > Int64.ofNat k) = false :=
    decide_eq_false fun hgt => absurd ((Int64.ofNat_lt_iff_lt (by omega) (by omega)).1 hgt) (by omega)
  have hne : (Int64.ofNat l == Int64.ofNat k) = false :=
    beq_false_of_ne fun heq => absurd ((ofNat_inj (by omega) (by omega)).1 heq) (by omega)
  rw [loopingArgs, straightArgs, decide_ofNat_neg (by omega), decide_ofNat_neg (by omega),
    decide_ofNat_neg (by omega), decide_ofNat_neg (by omega), hloop, hle, hne, Bool.and_false]
  rfl

theorem fairWithin_iff (hk : k < 2 ^ 63) {e : Encoding} {ls : List Lit} {V : View} :
    e.fairWithin ls (Int64.ofNat l).toUInt64 (Int64.ofNat k - 1).toUInt64 V ↔
      ∀ o ∈ ls, ∃ j, l ≤ j ∧ j < k ∧ e.holds o (V.word j) (V.word j) := by
  have hnat : ∀ j < 2 ^ 63, (UInt64.ofNat j).toNat = j := fun j hj =>
    UInt64.toNat_ofNat_of_lt' (show j < 2 ^ 64 by omega)
  have hlast : ((Int64.ofNat k - 1).toUInt64).toNat = k - 1 := by
    rw [ofNat_sub_one (by omega), Int64.toUInt64_ofNat', hnat (k - 1) (by omega)]
  rw [Encoding.fairWithin, List.all_eq_true]
  refine forall₂_congr fun o _ => ?_
  rw [List.any_eq_true]
  simp only [mem_instants_intervalLength_iff, UInt64.le_iff_toNat_le, hlast, V.letter_eq_word,
    Int64.toUInt64_ofNat', hnat l (by omega)]
  constructor
  · rintro ⟨t, ⟨hl, ht⟩, ho⟩
    exact ⟨t.toNat, hl, by omega, ho⟩
  · rintro ⟨j, hl, hj, ho⟩
    exact ⟨.ofNat j, ⟨by rw [hnat j (by omega)]; exact hl, by rw [hnat j (by omega)]; omega⟩,
      by rw [hnat j (by omega)]; exact ho⟩

theorem onLoopValue_iff (hk : k < 2 ^ 63) (hloop : (Loop.mk (.ofNat l)).isSingle) (m : Machine)
    (f : Formula) (e : Encoding) (p : Atoms) (V : View) :
    onLoopValue m f (.ofNat k) 0 true e ⟨.ofNat l⟩ p V ↔
      e.sameState (V.word l) (V.word k) ∧
        (∀ o ∈ m.fairness, ∃ j, l ≤ j ∧ j < k ∧ e.holds o (V.word j) (V.word j)) ∧
        loopingValue (p.onPath 0 V) (.ofNat k) ⟨.ofNat l⟩ f 0 := by
  have hnone := (Loop.isSingle_iff.1 hloop).1
  have hzero : decide (Int64.ofNat k = 0) = false := decide_eq_false fun h => by
    have := (@ofNat_inj k 0 hk (by omega)).1 h
    omega
  have hfair := @fairWithin_iff k l hlk hk e m.fairness.toList V
  unfold onLoopValue fairValue
  rw [Int64.zero_add, Int64.zero_add, hnone, hzero, Bool.and_eq_true, Bool.and_eq_true]
  refine and_congr Iff.rfl (and_congr ?_ Iff.rfl)
  simp only [Array.mem_toList_iff] at hfair
  rw [Bool.not_true, Bool.false_or, Bool.not_false, Bool.true_and, Bool.false_or]
  exact hfair

theorem onLoopOk_eq (hk : k < 2 ^ 63) (hloop : (Loop.mk (.ofNat l)).isSingle) (f : Formula)
    (acc : Expr → Bool) :
    onLoopOk f (.ofNat k) 0 true acc ⟨.ofNat l⟩ = loopingOk acc (.ofNat k) ⟨.ofNat l⟩ f 0 := by
  have hle : decide (Int64.ofNat l > Int64.ofNat k) = false :=
    decide_eq_false fun hgt => absurd ((Int64.ofNat_lt_iff_lt hk (by omega)).1 hgt) (by omega)
  have hargs : loopingArgs 0 (.ofNat k) ⟨.ofNat l⟩ 0 = true :=
    loopingArgs_ofNat hlk (o := 0) (t := 0) (by omega) (by omega) hloop
  unfold onLoopOk fairOk
  rw [Int64.zero_add, Int64.zero_add, decide_ofNat_neg hk, decide_ofNat_neg (by omega), hle, hloop,
    hargs, Bool.true_and]
  simp only [Bool.not_true, Bool.or_false, Bool.not_false, Bool.or_true, Bool.true_and]

theorem onLoopOk_of_isFuture (hk : k < 2 ^ 63) (hloop : (Loop.mk (.ofNat l)).isSingle)
    {f : Formula} (hf : f.isFuture) {acc : Expr → Bool} (hacc : ∀ x ∈ f.atoms, acc x) :
    onLoopOk f (.ofNat k) 0 true acc ⟨.ofNat l⟩ := by
  rw [onLoopOk_eq hlk hk hloop]
  exact loopingOk_of_isFuture hf hacc (.ofNat k) ⟨.ofNat l⟩ 0

end

end Encoder

end Lasso
