import Lasso.Proofs.Bounded.LoopingPath
import Lasso.Proofs.Bounded.Locality

/-! # What an encoding comes down to

An encoding descends to the atomic propositions of a formula, and to operators that have no
encoding, but not to all of them: nothing is asked beyond the bound, beneath what holds globally on
a path without a loop, or of the condition that ends a release on a loop of one step.  A formula has
an encoding if and only if all that it comes down to is accepted.
-/

namespace Lasso

set_option autoImplicit false

namespace Formula

/-- What is reached on a path without a loop that has a number of steps left. -/
def straightLeaves : Formula → Nat → List Formula
  | atom e, _ => [atom e]
  | unary .next _, 0 => []
  | unary .next f, n + 1 => f.straightLeaves n
  | unary .globally _, _ => []
  | unary op f, n => if op.isFuture then f.straightLeaves n else [unary op f]
  | binary op f g, n =>
    if op.isFuture then f.straightLeaves n ++ g.straightLeaves n else [binary op f g]

/-- What is reached on the paths of a length with all their loops. -/
def loopingLeaves (k : Nat) : Formula → List Formula
  | atom e => [atom e]
  | unary op f => if op.isFuture then f.loopingLeaves k else [unary op f]
  | binary op f g =>
    if op.isFuture then
      (if op = .releases ∧ k = 1 then [] else f.loopingLeaves k) ++ g.loopingLeaves k
    else [binary op f g]

def isAccepted (acc : Expr → Bool) : Formula → Bool
  | atom e => acc e
  | _ => false

theorem straightLeaves_mono (f : Formula) {n n' : Nat} (h : n ≤ n') :
    f.straightLeaves n ⊆ f.straightLeaves n' := by
  induction f generalizing n n' with
  | atom e => exact List.Subset.refl _
  | unary op f ih =>
    cases op with
    | next =>
      cases n with
      | zero => exact List.nil_subset _
      | succ n =>
        cases n' with
        | zero => omega
        | succ n' => exact ih (Nat.le_of_succ_le_succ h)
    | not | eventually => exact ih h
    | globally | previous | once | historically => exact List.Subset.refl _
  | binary op f g ihf ihg =>
    unfold straightLeaves
    split
    · intro x hx
      exact List.mem_append.2 ((List.mem_append.1 hx).imp (ihf h ·) (ihg h ·))
    · exact List.Subset.refl _

theorem loopingLeaves_binary {op : BinaryOp} {k : Nat} (hop : op.isFuture) (hk : k ≠ 1)
    (f g : Formula) :
    (binary op f g).loopingLeaves k = f.loopingLeaves k ++ g.loopingLeaves k := by
  rw [loopingLeaves, if_pos hop, if_neg fun hone => hk hone.2]

/-- With loops of more than one step every atomic proposition is reached, unless an operator without
an encoding stands above it. -/
theorem exists_mem_loopingLeaves {f : Formula} {acc : Expr → Bool} {k : Nat} (hk : k ≠ 1) {x : Expr}
    (hx : x ∈ f.atoms) (hacc : acc x = false) (negated : Bool) :
    ∃ y ∈ (f.normalise negated).loopingLeaves k, y.isAccepted acc = false := by
  have hnegate : ∀ b (g : Formula), (g.negateIf b).loopingLeaves k = g.loopingLeaves k := by
    intro b g
    cases b <;> rfl
  have hboth : ∀ {op : BinaryOp} {g h : Formula}, op.isFuture →
      (∃ y ∈ g.loopingLeaves k, y.isAccepted acc = false) ∨
        (∃ y ∈ h.loopingLeaves k, y.isAccepted acc = false) →
      ∃ y ∈ (binary op g h).loopingLeaves k, y.isAccepted acc = false := by
    intro op g h hop hy
    rw [loopingLeaves_binary hop hk]
    rcases hy with ⟨y, hy, hrejected⟩ | ⟨y, hy, hrejected⟩
    · exact ⟨y, List.mem_append_left _ hy, hrejected⟩
    · exact ⟨y, List.mem_append_right _ hy, hrejected⟩
  induction f generalizing negated with
  | atom e =>
    obtain rfl := List.mem_singleton.1 hx
    rw [normalise, hnegate]
    exact ⟨_, List.mem_singleton.2 rfl, hacc⟩
  | unary op f ih =>
    have ih := ih hx
    cases op with
    | not => exact ih (!negated)
    | next | globally | eventually | once | historically =>
      cases negated
      all_goals first
        | exact ih _
        | exact ⟨_, List.mem_singleton.2 rfl, rfl⟩
    | previous =>
      rw [normalise, UnaryOp.rule, hnegate]
      exact ⟨_, List.mem_singleton.2 rfl, rfl⟩
  | binary op f g ihf ihg =>
    have ih : ∀ b b', (∃ y ∈ (f.normalise b).loopingLeaves k, y.isAccepted acc = false) ∨
        (∃ y ∈ (g.normalise b').loopingLeaves k, y.isAccepted acc = false) := fun b b' =>
      (List.mem_append.1 hx).imp (ihf · b) (ihg · b')
    cases op with
    | and | or | untl | releases | implies =>
      cases negated <;> exact hboth rfl (ih _ _)
    | iff | xor =>
      -- the operands of a comparison occur twice, of which the first pair is enough
      exact hboth rfl (.inl (hboth rfl (ih _ _)))
    | since | reserved =>
      rw [normalise, BinaryOp.rule, hnegate]
      exact ⟨_, List.mem_singleton.2 rfl, rfl⟩

end Formula

namespace Encoder

variable {acc : Expr → Bool}

theorem and_iff_forall_append {a b : Bool} {fs gs : List Formula}
    (ha : a ↔ ∀ x ∈ fs, x.isAccepted acc) (hb : b ↔ ∀ x ∈ gs, x.isAccepted acc) :
    (a && b) ↔ ∀ x ∈ fs ++ gs, x.isAccepted acc := by
  rw [Bool.and_eq_true, List.forall_mem_append, ha, hb]

theorem false_iff_forall_singleton {f : Formula} (hf : f.isAccepted acc = false) :
    (false : Bool) ↔ ∀ x ∈ [f], x.isAccepted acc := by
  rw [List.forall_mem_singleton, hf]

/-- What is asked at every later time is asked at the first, from where most is reached. -/
theorem all_timesUpTo_iff {b t : Nat} (hb : b < 2 ^ 63) (ht : t ≤ b) {P : Int64 → Bool}
    {leaves : Nat → List Formula} (hmono : ∀ {n n' : Nat}, n ≤ n' → leaves n ⊆ leaves n')
    (hP : ∀ u ≤ b, P (.ofNat u) ↔ ∀ x ∈ leaves (b - u), x.isAccepted acc) :
    (timesUpTo (.ofNat t) (.ofNat b)).all P ↔ ∀ x ∈ leaves (b - t), x.isAccepted acc := by
  rw [timesUpTo_ofNat (by omega) hb, List.all_map, List.all_eq_true]
  simp only [List.mem_range'_1, Function.comp]
  constructor
  · intro hall
    exact (hP t ht).1 (hall t ⟨Nat.le_refl t, by omega⟩)
  · rintro hall u ⟨htu, hu⟩
    exact (hP u (by omega)).2 fun x hx => hall x (hmono (by omega) hx)

theorem straightOk_iff {b : Nat} (hb : b + 1 < 2 ^ 63) (f : Formula) {t : Nat} (ht : t ≤ b) :
    straightOk acc (.ofNat b) f (.ofNat t) ↔
      ∀ x ∈ f.straightLeaves (b - t), x.isAccepted acc := by
  have hinside : ∀ u ≤ b, decide (Int64.ofNat u > Int64.ofNat b) = false := fun u hu =>
    decide_gt_of_le ((Int64.ofNat_le_iff_le (by omega) (by omega)).2 hu)
  -- an unfolding asks the most of its operands at the first of its times
  induction f generalizing t with
  | atom e =>
    rw [straightOk, hinside t ht, Bool.false_or, Formula.straightLeaves, List.forall_mem_singleton,
      Formula.isAccepted]
  | unary op f ih =>
    simp only [straightOk, hinside t ht, Bool.false_or]
    cases op with
    | not => exact ih ht
    | next =>
      rw [show Int64.ofNat t + 1 = .ofNat (t + 1) from (Int64.ofNat_add t 1).symm]
      rcases Nat.eq_or_lt_of_le ht with rfl | hlt
      · -- the next time lies beyond the bound
        have hlate : Int64.ofNat (t + 1) > Int64.ofNat t :=
          (Int64.ofNat_lt_iff_lt (by omega) hb).2 (Nat.lt_succ_self t)
        rw [Nat.sub_self, straightOk_of_gt hlate]
        exact iff_of_true rfl (List.forall_mem_nil _)
      · rw [show b - t = b - (t + 1) + 1 by omega]
        exact ih hlt
    | globally => exact iff_of_true rfl (List.forall_mem_nil _)
    | eventually =>
      exact all_timesUpTo_iff (by omega) ht f.straightLeaves_mono fun u hu => ih hu
    | previous | once | historically => exact false_iff_forall_singleton rfl
  | binary op f g ihf ihg =>
    simp only [straightOk, hinside t ht, Bool.false_or]
    cases op with
    | untl | releases =>
      have hmono : ∀ {n n' : Nat}, n ≤ n' → f.straightLeaves n ++ g.straightLeaves n ⊆
          f.straightLeaves n' ++ g.straightLeaves n' := by
        intro n n' h x hx
        exact List.mem_append.2 ((List.mem_append.1 hx).imp (f.straightLeaves_mono h ·)
          (g.straightLeaves_mono h ·))
      refine all_timesUpTo_iff (by omega) ht hmono fun u hu => ?_
      rw [Bool.and_comm]
      exact and_iff_forall_append (ihf hu) (ihg hu)
    | and | or | xor | implies | iff =>
      have hparts := and_iff_forall_append (ihf ht) (ihg ht)
      exact hparts
    | since | reserved => exact false_iff_forall_singleton rfl

/-- With any loop, a formula has a value if all that can be reached beneath it is accepted. -/
theorem loopingOk_of_loopingLeaves {k : Nat} (hk : k ≠ 1) {f : Formula}
    (hf : ∀ x ∈ f.loopingLeaves k, x.isAccepted acc) (bound : Int64) (loop : Loop) (time : Int64) :
    loopingOk acc bound loop f time := by
  induction f generalizing time with
  | atom e =>
    rw [loopingOk, Bool.or_eq_true]
    exact .inr (hf _ List.mem_cons_self)
  | unary op f ih =>
    simp only [loopingOk, Bool.or_eq_true]
    right
    cases op with
    | not => exact ih hf time
    | next => exact ih hf _
    | globally | eventually => exact List.all_eq_true.2 fun t _ => ih hf t
    | previous | once | historically => exact (false_iff_forall_singleton rfl).2 hf
  | binary op f g ihf ihg =>
    by_cases hop : op.isFuture = true
    · rw [Formula.loopingLeaves_binary hop hk, List.forall_mem_append] at hf
      have ihf := ihf hf.1
      have ihg := ihg hf.2
      have hboth : ∀ ts : List Int64,
          ts.all fun t => loopingOk acc bound loop g t && loopingOk acc bound loop f t := fun ts =>
        List.all_eq_true.2 fun t _ => Bool.and_eq_true_iff.2 ⟨ihg t, ihf t⟩
      simp only [loopingOk, Bool.or_eq_true]
      right
      cases op with
      | untl => exact hboth _
      | releases => exact Bool.and_eq_true_iff.2 ⟨ihg _, hboth _⟩
      | and | or | xor | implies | iff =>
        exact Bool.and_eq_true_iff.2 ⟨rfl, Bool.and_eq_true_iff.2 ⟨ihf time, ihg time⟩⟩
      | since | reserved => cases hop
    · rw [Formula.loopingLeaves, if_neg hop] at hf
      cases (false_iff_forall_singleton rfl).2 hf

theorem all_range'_iff {s c : Nat} (hc : 0 < c) {P : Int64 → Bool} {fs : List Formula}
    (hP : ∀ u, s ≤ u → u < s + c → (P (.ofNat u) ↔ ∀ x ∈ fs, x.isAccepted acc)) :
    ((List.range' s c).map Int64.ofNat).all P ↔ ∀ x ∈ fs, x.isAccepted acc := by
  rw [List.all_map, List.all_eq_true]
  simp only [List.mem_range'_1, Function.comp]
  constructor
  · intro hall
    exact (hP s (Nat.le_refl s) (by omega)).1 (hall s ⟨Nat.le_refl s, by omega⟩)
  · rintro hall u ⟨hs, hu⟩
    exact (hP u hs hu).2 hall

theorem loopingOk_zero_iff {k : Nat} (hk : k < 2 ^ 63) (f : Formula) {n : Nat} (hn : n < k) :
    loopingOk acc (.ofNat k) ⟨.ofNat 0⟩ f (.ofNat n) ↔
      ∀ x ∈ f.loopingLeaves k, x.isAccepted acc := by
  have hloop : ¬ (Loop.mk (.ofNat 0)).isNone := by decide
  -- with the loop at the beginning every unfolding starts from the first time of the path
  have htimes : ∀ n < k, ∀ b ≤ k, times (min (Int64.ofNat n) (Int64.ofNat 0)) (Int64.ofNat b) =
      (List.range' 0 b).map Int64.ofNat := by
    intro n hn b hb
    rw [times_eq (l := 0) (by omega) hk hn hb, Nat.min_zero, Nat.sub_zero]
  induction f generalizing n with
  | atom e =>
    rw [loopingOk, decide_outside hk hn, Bool.false_or, Formula.loopingLeaves,
      List.forall_mem_singleton, Formula.isAccepted]
  | unary op f ih =>
    simp only [loopingOk, decide_outside hk hn, Bool.false_or]
    cases op with
    | not => exact ih hn
    | next =>
      dsimp only
      rw [successor_eq hk hloop hn]
      exact ih (by split <;> omega)
    | globally | eventually =>
      dsimp only
      rw [htimes n hn k (Nat.le_refl k)]
      exact all_range'_iff (by omega) fun u _ hu => ih (by omega)
    | previous | once | historically => exact false_iff_forall_singleton rfl
  | binary op f g ihf ihg =>
    have hboth : ∀ u < k, (loopingOk acc (.ofNat k) ⟨.ofNat 0⟩ g (.ofNat u) &&
        loopingOk acc (.ofNat k) ⟨.ofNat 0⟩ f (.ofNat u)) ↔
        ∀ x ∈ f.loopingLeaves k ++ g.loopingLeaves k, x.isAccepted acc := by
      intro u hu
      rw [Bool.and_comm]
      exact and_iff_forall_append (ihf hu) (ihg hu)
    simp only [loopingOk, decide_outside hk hn, Bool.false_or]
    cases op with
    | untl =>
      dsimp only
      rw [htimes n hn k (Nat.le_refl k)]
      exact all_range'_iff (by omega) fun u _ hu => hboth u (by omega)
    | releases =>
      dsimp only
      rw [ofNat_sub_one (by omega), htimes n hn (k - 1) (by omega), Bool.and_eq_true]
      refine (and_congr_left' (ihg (by omega))).trans ?_
      rcases Nat.eq_or_lt_of_le (show 1 ≤ k by omega) with rfl | hlt
      · -- the only time of the loop is its last, where the left operand is not asked
        exact and_iff_left rfl
      · rw [all_range'_iff (by omega) fun u _ hu => hboth u (by omega), List.forall_mem_append,
          Formula.loopingLeaves_binary rfl (by omega), List.forall_mem_append]
        exact ⟨And.right, fun h => ⟨h.2, h⟩⟩
    | and | or | xor | implies | iff =>
      have hparts := and_iff_forall_append (ihf hn) (ihg hn)
      exact hparts
    | since | reserved => exact false_iff_forall_singleton rfl

end Encoder

end Lasso
