import Lasso.Proofs.Formula.LoopingWord

/-! # Until on looping words, judged early

On a looping path until and its dual may be judged at the loop where they ought to be judged at a
later position.  That makes a difference only to formulas in which they are met after the loop, and
never to flat formulas at the start.
-/

namespace Lasso

set_option autoImplicit false

namespace Formula

/-- The formula holds at a position of a looping word if until and its dual are judged at the loop
wherever their position lies after it. -/
def HoldsEarly (l : Nat) (p : Nat → Expr → Prop) : Formula → Nat → Prop
  | .atom e, n => p n e
  | .unary op f, n => op.Holds (f.HoldsEarly l p) n
  | .binary op f g, n =>
    op.Holds (f.HoldsEarly l p) (g.HoldsEarly l p) (if op.isUnfolded then min n l else n)

/-- Evaluating a formula at a position of a looping path meets until and its dual only where they
do not lie after the loop. -/
def Aligned (k l : Nat) : Formula → Nat → Prop
  | .atom _, _ => True
  | .unary .not f, n => f.Aligned k l n
  | .unary .next f, n => f.Aligned k l (if n + 1 < k then n + 1 else l)
  | .unary _ f, n => ∀ m < k, min n l ≤ m → f.Aligned k l m
  | .binary op f g, n =>
    if op.isUnfolded then n ≤ l ∧ ∀ m < k, min n l ≤ m → f.Aligned k l m ∧ g.Aligned k l m
    else f.Aligned k l n ∧ g.Aligned k l n

section

variable {k l : Nat} {p : Nat → Expr → Prop} (hp : ∀ e, Recurs k l (p · e)) {f : Formula}

include hp

theorem recurs_holds (hf : f.isFuture) : Recurs k l (f.Holds p) := by
  induction f with
  | atom e => exact hp e
  | unary op f ih =>
    simp only [isFuture, Bool.and_eq_true] at hf
    exact fun n hn => UnaryOp.holds_shift hf.1 fun m hm => ih hf.2 m (Nat.le_trans hn hm)
  | binary op f g ihf ihg =>
    simp only [isFuture, Bool.and_eq_true] at hf
    exact fun n hn => BinaryOp.holds_shift hf.1 (fun m hm => ihf hf.2.1 m (Nat.le_trans hn hm))
      fun m hm => ihg hf.2.2 m (Nat.le_trans hn hm)

theorem recurs_holdsEarly (hf : f.isFuture) : Recurs k l (f.HoldsEarly l p) := by
  induction f with
  | atom e => exact hp e
  | unary op f ih =>
    simp only [isFuture, Bool.and_eq_true] at hf
    exact fun n hn => UnaryOp.holds_shift hf.1 fun m hm => ih hf.2 m (Nat.le_trans hn hm)
  | binary op f g ihf ihg =>
    simp only [isFuture, Bool.and_eq_true] at hf
    intro n hn
    rw [HoldsEarly, HoldsEarly]
    split
    · rw [Nat.min_eq_right hn, Nat.min_eq_right (Nat.le_trans hn (Nat.le_add_right n (k - l)))]
    · exact BinaryOp.holds_shift hf.1 (fun m hm => ihf hf.2.1 m (Nat.le_trans hn hm))
        fun m hm => ihg hf.2.2 m (Nat.le_trans hn hm)

/-- The early judgement is the right one wherever nothing is judged after the loop. -/
theorem holdsEarly_iff (hlk : l < k) (hf : f.isFuture) {n : Nat} (hn : n < k)
    (haligned : f.Aligned k l n) : f.HoldsEarly l p n ↔ f.Holds p n := by
  -- both judgements recur, which takes every operator back to positions of the path, where the
  -- hypothesis on the operands applies
  induction f generalizing n with
  | atom e => exact Iff.rfl
  | unary op f ih =>
    have hf' := hf
    simp only [isFuture, Bool.and_eq_true] at hf'
    have hearly := recurs_holdsEarly hp hf'.2
    have hholds := recurs_holds hp hf'.2
    cases op with
    | not => exact not_congr (ih hf'.2 hn haligned)
    | next =>
      change f.HoldsEarly l p (n + 1) ↔ f.Holds p (n + 1)
      rw [hearly.next_iff hlk hn, hholds.next_iff hlk hn]
      exact ih hf'.2 (by split <;> omega) haligned
    | globally =>
      change (∀ m ≥ n, f.HoldsEarly l p m) ↔ ∀ m ≥ n, f.Holds p m
      rw [hearly.globally_iff hlk hn, hholds.globally_iff hlk hn]
      exact forall₃_congr fun m hmk hm => ih hf'.2 hmk (haligned m hmk hm)
    | eventually =>
      change (∃ m ≥ n, f.HoldsEarly l p m) ↔ ∃ m ≥ n, f.Holds p m
      rw [hearly.eventually_iff hlk hn, hholds.eventually_iff hlk hn]
      exact exists_congr fun m => and_congr_right fun hmk => and_congr_right fun hm =>
        ih hf'.2 hmk (haligned m hmk hm)
    | _ => cases hf'.1
  | binary op f g ihf ihg =>
    have hf' := hf
    simp only [isFuture, Bool.and_eq_true] at hf'
    obtain ⟨hop, hff, hfg⟩ := hf'
    have hearly := recurs_holdsEarly hp hfg
    have hholds := recurs_holds hp hfg
    rw [Aligned] at haligned
    rw [HoldsEarly, Holds]
    by_cases hunfolded : op.isUnfolded
    · rw [if_pos hunfolded] at haligned ⊢
      obtain ⟨hnl, hparts⟩ := haligned
      rw [Nat.min_eq_left hnl] at hparts ⊢
      have hgoal : ∀ m < k, n ≤ m → (g.HoldsEarly l p m ↔ g.Holds p m) := fun m hmk hm =>
        ihg hfg hmk (hparts m hmk hm).2
      have hwait : ∀ m < k, n ≤ m → (f.HoldsEarly l p m ↔ f.Holds p m) := fun m hmk hm =>
        ihf hff hmk (hparts m hmk hm).1
      cases op with
      | untl =>
        rw [hearly.untl_iff hlk hnl, hholds.untl_iff hlk hnl]
        refine exists_congr fun m => and_congr_right fun hmk => and_congr_right fun hm =>
          and_congr (hgoal m hmk hm) ?_
        exact forall₃_congr fun j hj hjm => hwait j (Nat.lt_trans hjm hmk) hj
      | releases =>
        rw [hearly.releases_iff hlk hnl, hholds.releases_iff hlk hnl]
        refine forall₃_congr fun m hmk hm => or_congr (hgoal m hmk hm) ?_
        exact exists_congr fun j => and_congr_right fun hj => and_congr_right fun hjm =>
          hwait j (Nat.lt_trans hjm hmk) hj
      | _ => cases hunfolded
    · rw [if_neg hunfolded] at haligned ⊢
      have hleft := ihf hff hn haligned.1
      have hright := ihg hfg hn haligned.2
      cases op with
      | and => exact and_congr hleft hright
      | or => exact or_congr hleft hright
      | xor => exact not_congr (iff_congr hleft hright)
      | implies => exact imp_congr hleft hright
      | iff => exact iff_congr hleft hright
      | untl => exact absurd rfl hunfolded
      | releases => exact absurd rfl hunfolded
      | _ => cases hop

end

theorem aligned_of_isFolded {k l : Nat} {f : Formula} (h : f.isFolded) (n : Nat) :
    f.Aligned k l n := by
  induction f generalizing n with
  | atom e => trivial
  | unary op f ih =>
    cases op with
    | not => exact ih h n
    | next => exact ih h _
    | _ => exact fun m _ _ => ih h m
  | binary op f g ihf ihg =>
    simp only [isFolded, Bool.and_eq_true, Bool.not_eq_true'] at h
    rw [Aligned, h.1]
    exact ⟨ihf h.2.1 n, ihg h.2.2 n⟩

/-- A flat formula meets until and its dual at its own position only. -/
theorem aligned_of_isFlat {k l : Nat} {f : Formula} (h : f.isFlat) {n : Nat} (hn : n ≤ l) :
    f.Aligned k l n := by
  induction f with
  | atom e => trivial
  | unary op f ih =>
    cases op with
    | not => exact ih h
    | next => exact aligned_of_isFolded h _
    | _ => exact fun m _ _ => aligned_of_isFolded h m
  | binary op f g ihf ihg =>
    rw [Aligned]
    split
    · rename_i hop
      have htemporal : op.isTemporal := by
        cases op with
        | untl | releases => rfl
        | _ => cases hop
      simp only [isFlat, htemporal, if_true, Bool.and_eq_true] at h
      exact ⟨hn, fun m _ _ => ⟨aligned_of_isFolded h.1 m, aligned_of_isFolded h.2 m⟩⟩
    · rename_i hop
      simp only [isFlat] at h
      split at h
      · simp only [Bool.and_eq_true] at h
        exact ⟨aligned_of_isFolded h.1 n, aligned_of_isFolded h.2 n⟩
      · simp only [Bool.and_eq_true] at h
        exact ⟨ihf h.1, ihg h.2⟩

end Formula

end Lasso
