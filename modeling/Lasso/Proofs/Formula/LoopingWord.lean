import Lasso.Proofs.Formula.Fragment
import Lasso.Proofs.Formula.Word

/-! # Formulas on looping words

A path with positions below `k` that loops back to `l` stands for an infinite word, in which every
position from `l` on is repeated `k - l` positions later.  A formula about the future repeats
likewise, so that an operator is decided by the positions between the earlier one of its position
and the loop, and the end of the path.
-/

namespace Lasso

set_option autoImplicit false

/-- The position of a looping path at which the infinite word is at a position. -/
def wrap (k l n : Nat) : Nat := if n < k then n else l + (n - l) % (k - l)

/-- What holds from the loop on holds again one round later. -/
def Recurs (k l : Nat) (P : Nat → Prop) : Prop := ∀ n ≥ l, P (n + (k - l)) ↔ P n

theorem le_wrap {k l s n : Nat} (hs : s ≤ l) (hn : s ≤ n) : s ≤ wrap k l n := by
  unfold wrap
  split <;> omega

section

variable {k l : Nat} (hlk : l < k)

include hlk

theorem wrap_lt (n : Nat) : wrap k l n < k := by
  unfold wrap
  split
  · assumption
  · have := Nat.mod_lt (n - l) (show 0 < k - l by omega)
    omega

theorem wrap_add {n : Nat} (hn : l ≤ n) : wrap k l (n + (k - l)) = wrap k l n := by
  have hmod : (n + (k - l) - l) % (k - l) = (n - l) % (k - l) := by
    rw [show n + (k - l) - l = n - l + (k - l) by omega, Nat.add_mod_right]
  unfold wrap
  rw [if_neg (by omega), hmod]
  split
  · rw [Nat.mod_eq_of_lt (by omega)]
    omega
  · rfl

theorem recurs_wrap (P : Nat → Prop) : Recurs k l (fun n => P (wrap k l n)) := by
  intro n hn
  simp only [wrap_add hlk hn]

/-- Whether something that repeats holds at a position is seen on the path. -/
theorem Recurs.wrap_iff {P : Nat → Prop} (hP : Recurs k l P) (n : Nat) :
    P (wrap k l n) ↔ P n := by
  have hround : ∀ c m, l ≤ m → (P (m + (k - l) * c) ↔ P m) := by
    intro c
    induction c with
    | zero => simp
    | succ c ih =>
      intro m hm
      rw [Nat.mul_succ, ← Nat.add_assoc, hP _ (by omega), ih m hm]
  unfold wrap
  split
  · rfl
  · have hdiv := Nat.mod_add_div (n - l) (k - l)
    rw [← hround ((n - l) / (k - l)) (l + (n - l) % (k - l)) (by omega)]
    rw [show l + (n - l) % (k - l) + (k - l) * ((n - l) / (k - l)) = n by omega]

theorem Recurs.next_iff {P : Nat → Prop} (hP : Recurs k l P) {n : Nat} (hn : n < k) :
    P (n + 1) ↔ P (if n + 1 < k then n + 1 else l) := by
  split
  · rfl
  · rw [← hP l (Nat.le_refl l), show l + (k - l) = n + 1 by omega]

theorem Recurs.globally_iff {P : Nat → Prop} (hP : Recurs k l P) {n : Nat} (hn : n < k) :
    (∀ m ≥ n, P m) ↔ ∀ m < k, min n l ≤ m → P m := by
  constructor
  · intro h m hmk hm
    by_cases hnm : n ≤ m
    · exact h m hnm
    · exact (hP m (by omega)).1 (h _ (by omega))
  · intro h m hm
    exact (hP.wrap_iff hlk m).1 (h _ (wrap_lt hlk m) (le_wrap (by omega) (by omega)))

theorem Recurs.eventually_iff {P : Nat → Prop} (hP : Recurs k l P) {n : Nat} (hn : n < k) :
    (∃ m ≥ n, P m) ↔ ∃ m < k, min n l ≤ m ∧ P m := by
  constructor
  · rintro ⟨m, hm, h⟩
    exact ⟨_, wrap_lt hlk m, le_wrap (by omega) (by omega), (hP.wrap_iff hlk m).2 h⟩
  · rintro ⟨m, hmk, hm, h⟩
    by_cases hnm : n ≤ m
    · exact ⟨m, hnm, h⟩
    · exact ⟨m + (k - l), by omega, (hP m (by omega)).2 h⟩

/-- From the loop or before it, until is decided on the path. -/
theorem Recurs.untl_iff {P Q : Nat → Prop} (hQ : Recurs k l Q) {s : Nat} (hs : s ≤ l) :
    BinaryOp.untl.Holds P Q s ↔ ∃ m < k, s ≤ m ∧ Q m ∧ ∀ j, s ≤ j → j < m → P j := by
  constructor
  · rintro ⟨m, hm, hq, hp⟩
    by_cases hmk : m < k
    · exact ⟨m, hmk, hm, hq, hp⟩
    · have hlt := wrap_lt hlk m
      exact ⟨wrap k l m, hlt, le_wrap hs (by omega), (hQ.wrap_iff hlk m).2 hq,
        fun j hj hjm => hp j hj (by omega)⟩
  · rintro ⟨m, -, hm, hq, hp⟩
    exact ⟨m, hm, hq, hp⟩

theorem Recurs.releases_iff {P Q : Nat → Prop} (hQ : Recurs k l Q) {s : Nat} (hs : s ≤ l) :
    BinaryOp.releases.Holds P Q s ↔ ∀ m < k, s ≤ m → Q m ∨ ∃ j, s ≤ j ∧ j < m ∧ P j := by
  constructor
  · intro h m _ hm
    exact h m hm
  · intro h m hm
    by_cases hmk : m < k
    · exact h m hmk hm
    · have hlt := wrap_lt hlk m
      rcases h _ hlt (le_wrap hs hm) with hq | ⟨j, hj, hjm, hp⟩
      · exact .inl ((hQ.wrap_iff hlk m).1 hq)
      · exact .inr ⟨j, hj, by omega, hp⟩

end

theorem UnaryOp.holds_shift {op : UnaryOp} (h : op.isFuture) {P : Nat → Prop} {d n : Nat}
    (hP : ∀ m ≥ n, P (m + d) ↔ P m) : op.Holds P (n + d) ↔ op.Holds P n := by
  have hback : ∀ m ≥ n + d, ∃ m' ≥ n, m' + d = m := fun m hm => ⟨m - d, by omega, by omega⟩
  cases op with
  | not => exact not_congr (hP n (Nat.le_refl n))
  | next =>
    change P (n + d + 1) ↔ P (n + 1)
    rw [Nat.add_right_comm, hP _ (by omega)]
  | globally =>
    constructor
    · intro hall m hm
      exact (hP m hm).1 (hall _ (by omega))
    · intro hall m hm
      obtain ⟨m', hm', rfl⟩ := hback m hm
      exact (hP m' hm').2 (hall m' hm')
  | eventually =>
    constructor
    · rintro ⟨m, hm, hp⟩
      obtain ⟨m', hm', rfl⟩ := hback m hm
      exact ⟨m', hm', (hP m' hm').1 hp⟩
    · rintro ⟨m, hm, hp⟩
      exact ⟨m + d, by omega, (hP m hm).2 hp⟩
  | _ => cases h

theorem BinaryOp.holds_shift {op : BinaryOp} (h : op.isFuture) {P Q : Nat → Prop} {d n : Nat}
    (hP : ∀ m ≥ n, P (m + d) ↔ P m) (hQ : ∀ m ≥ n, Q (m + d) ↔ Q m) :
    op.Holds P Q (n + d) ↔ op.Holds P Q n := by
  have hback : ∀ m ≥ n + d, ∃ m' ≥ n, m' + d = m := fun m hm => ⟨m - d, by omega, by omega⟩
  have hnow := hP n (Nat.le_refl n)
  have hnow' := hQ n (Nat.le_refl n)
  cases op with
  | and => exact and_congr hnow hnow'
  | or => exact or_congr hnow hnow'
  | xor => exact not_congr (iff_congr hnow hnow')
  | implies => exact imp_congr hnow hnow'
  | iff => exact iff_congr hnow hnow'
  | untl =>
    constructor
    · rintro ⟨m, hm, hq, hp⟩
      obtain ⟨m', hm', rfl⟩ := hback m hm
      exact ⟨m', hm', (hQ m' hm').1 hq, fun j hj hjm => (hP j hj).1 (hp _ (by omega) (by omega))⟩
    · rintro ⟨m, hm, hq, hp⟩
      refine ⟨m + d, by omega, (hQ m hm).2 hq, fun j hj hjm => ?_⟩
      obtain ⟨j', hj', rfl⟩ := hback j hj
      exact (hP j' hj').2 (hp j' hj' (by omega))
  | releases =>
    constructor
    · intro hall m hm
      rcases hall (m + d) (by omega) with hq | ⟨j, hj, hjm, hp⟩
      · exact .inl ((hQ m hm).1 hq)
      · obtain ⟨j', hj', rfl⟩ := hback j hj
        exact .inr ⟨j', hj', by omega, (hP j' hj').1 hp⟩
    · intro hall m hm
      obtain ⟨m', hm', rfl⟩ := hback m hm
      rcases hall m' hm' with hq | ⟨j, hj, hjm, hp⟩
      · exact .inl ((hQ m' hm').2 hq)
      · exact .inr ⟨j + d, by omega, by omega, (hP j hj).2 hp⟩
  | _ => cases h

end Lasso
