import Lasso.Proofs.Bounded.LoopEncoding
import Lasso.Proofs.Bounded.Locality
import Lasso.Proofs.Formula.NormalForm

/-! # Formulas on paths without a loop

What is found to hold on a path without a loop holds on every infinite word that begins with the
path, as long as negations stand above atomic propositions only.  Nothing holds beyond the bound, so
no operator can rely on what comes there.
-/

namespace Lasso

set_option autoImplicit false

/-- The only formulas about the future beneath a negation are atomic propositions. -/
theorem Formula.exists_eq_atom {f : Formula} (hneg : f.isNegatable) (hf : f.isFuture) :
    ∃ e, f = .atom e := by
  cases f with
  | atom e => exact ⟨e, rfl⟩
  | unary op f =>
    obtain rfl : op = .previous := eq_of_beq hneg
    cases hf
  | binary op f g =>
    obtain rfl : op = .since := eq_of_beq hneg
    cases hf

namespace Encoder

open Encoding

/-- The dual of until, of which nothing is known after the last time, is until both operands
hold. -/
theorem releaseValue_eq_untilValue (goal wait : Int64 → Bool) (ts : List Int64) :
    releaseValue goal wait ts false = untilValue (fun t => goal t && wait t) goal ts false := by
  unfold releaseValue untilValue
  simp only [Bool.and_or_distrib_left]

theorem straightOk_of_isFuture {acc : Expr → Bool} {f : Formula} (hf : f.isFuture)
    (hacc : ∀ x ∈ f.atoms, acc x) (bound time : Int64) : straightOk acc bound f time := by
  induction f generalizing time with
  | atom e =>
    rw [straightOk, Bool.or_eq_true]
    exact .inr (hacc e List.mem_cons_self)
  | unary op f ih =>
    simp only [Formula.isFuture, Bool.and_eq_true] at hf
    have ih := ih hf.2 hacc
    simp only [straightOk, Bool.or_eq_true]
    right
    cases op with
    | not => exact ih time
    | next => exact ih _
    | globally => rfl
    | eventually => exact List.all_eq_true.2 fun t _ => ih t
    | _ => cases hf.1
  | binary op f g ihf ihg =>
    simp only [Formula.isFuture, Bool.and_eq_true] at hf
    have ihf := ihf hf.2.1 fun x hx => hacc x (List.mem_append_left _ hx)
    have ihg := ihg hf.2.2 fun x hx => hacc x (List.mem_append_right _ hx)
    simp only [straightOk, Bool.or_eq_true]
    right
    cases op with
    | untl | releases =>
      exact List.all_eq_true.2 fun t _ => Bool.and_eq_true_iff.2 ⟨ihg t, ihf t⟩
    | and | or | xor | implies | iff =>
      exact Bool.and_eq_true_iff.2 ⟨rfl, Bool.and_eq_true_iff.2 ⟨ihf time, ihg time⟩⟩
    | _ => cases hf.1

section

variable {p : Int64 → Expr → Bool} {k n : Nat} (hk : k < 2 ^ 63) (hn : n < 2 ^ 63)

include hk hn

theorem le_of_straightValue {f : Formula} (h : straightValue p (.ofNat k) f (.ofNat n)) :
    n ≤ k := by
  by_contra hgt
  have hlate : Int64.ofNat n > Int64.ofNat k := (Int64.ofNat_lt_iff_lt hk hn).2 (by omega)
  rw [straightValue_of_gt hlate] at h
  cases h

theorem decide_gt_ofNat (hle : n ≤ k) : decide (Int64.ofNat n > Int64.ofNat k) = false :=
  decide_gt_of_le ((Int64.ofNat_le_iff_le hn hk).2 hle)

theorem straightValue_untl_iff {f g : Formula} (hle : n ≤ k) :
    straightValue p (.ofNat k) (.binary .untl f g) (.ofNat n) ↔
      ∃ m < k + 1, n ≤ m ∧ straightValue p (.ofNat k) g (.ofNat m) ∧
        ∀ j, n ≤ j → j < m → straightValue p (.ofNat k) f (.ofNat j) := by
  simp only [straightValue, decide_gt_ofNat hk hn hle, Bool.not_false, Bool.true_and]
  rw [timesUpTo_ofNat hn hk, untilValue_iff, Nat.add_sub_cancel' (by omega)]

theorem straightValue_releases_iff {f g : Formula} (hle : n ≤ k) :
    straightValue p (.ofNat k) (.binary .releases f g) (.ofNat n) ↔
      ∃ m < k + 1, n ≤ m ∧ (straightValue p (.ofNat k) g (.ofNat m) ∧
        straightValue p (.ofNat k) f (.ofNat m)) ∧
        ∀ j, n ≤ j → j < m → straightValue p (.ofNat k) g (.ofNat j) := by
  simp only [straightValue, decide_gt_ofNat hk hn hle, Bool.not_false, Bool.true_and]
  rw [releaseValue_eq_untilValue, timesUpTo_ofNat hn hk, untilValue_iff,
    Nat.add_sub_cancel' (by omega)]
  simp only [Bool.and_eq_true]

end

/-- What holds by the bound holds on every word that has the values of the path up to the bound. -/
theorem holds_of_straightValue {p : Int64 → Expr → Bool} {q : Nat → Expr → Prop} {k : Nat}
    (hp : ∀ j ≤ k, ∀ x, p (.ofNat j) x ↔ q j x) (hk : k + 1 < 2 ^ 63) {f : Formula}
    (hnormal : f.isNormal) (hf : f.isFuture) {n : Nat} (hn : n < 2 ^ 63)
    (h : straightValue p (.ofNat k) f (.ofNat n)) : f.Holds q n := by
  have hk' : k < 2 ^ 63 := by omega
  induction f generalizing n with
  | atom e =>
    have hle := le_of_straightValue hk' hn h
    rw [straightValue, decide_gt_ofNat hk' hn hle] at h
    exact (hp n hle e).1 h
  | unary op f ih =>
    have hle := le_of_straightValue hk' hn h
    simp only [Formula.isFuture, Bool.and_eq_true] at hf
    simp only [Formula.isNormal, Bool.and_eq_true] at hnormal
    have ih := @ih hnormal.2 hf.2
    have hgt := decide_gt_ofNat hk' hn hle
    cases op with
    | not =>
      obtain ⟨e, rfl⟩ := Formula.exists_eq_atom hnormal.1 hf.2
      intro hq
      simp only [straightValue, hgt, (hp n hle e).2 hq] at h
      cases h
    | next =>
      simp only [straightValue, hgt, Bool.not_false, Bool.true_and] at h
      rw [show Int64.ofNat n + 1 = Int64.ofNat (n + 1) from (Int64.ofNat_add n 1).symm] at h
      exact ih (by omega) h
    | globally =>
      simp only [straightValue, Bool.and_false] at h
      cases h
    | eventually =>
      simp only [straightValue, hgt, Bool.not_false, Bool.true_and] at h
      rw [timesUpTo_ofNat hn hk'] at h
      obtain ⟨t, ht, hval⟩ := List.any_eq_true.1 h
      obtain ⟨j, hj, rfl⟩ := List.mem_map.1 ht
      rw [List.mem_range'_1] at hj
      exact ⟨j, hj.1, ih (by omega) hval⟩
    | previous | once | historically => cases hf.1
  | binary op f g ihf ihg =>
    have hle := le_of_straightValue hk' hn h
    simp only [Formula.isFuture, Bool.and_eq_true] at hf
    simp only [Formula.isNormal, Bool.and_eq_true] at hnormal
    have ihf := @ihf hnormal.2.1 hf.2.1
    have ihg := @ihg hnormal.2.2 hf.2.2
    have hgt := decide_gt_ofNat hk' hn hle
    cases op with
    | and =>
      simp only [straightValue, hgt, Bool.not_false, Bool.true_and] at h
      obtain ⟨hleft, hright⟩ := Bool.and_eq_true_iff.1 h
      exact ⟨ihf hn hleft, ihg hn hright⟩
    | or =>
      simp only [straightValue, hgt, Bool.not_false, Bool.true_and] at h
      exact ((Bool.or_eq_true _ _).to_iff.1 h).imp (ihf hn) (ihg hn)
    | untl =>
      obtain ⟨m, hm, hnm, hgoal, hwait⟩ := (straightValue_untl_iff hk' hn hle).1 h
      exact ⟨m, hnm, ihg (by omega) hgoal, fun j hj hjm => ihf (by omega) (hwait j hj hjm)⟩
    | releases =>
      obtain ⟨m, hm, hnm, ⟨hgoal, hwait⟩, hbefore⟩ := (straightValue_releases_iff hk' hn hle).1 h
      -- the release at `m` lies within the path, so nothing is asked of the times after it
      intro i hi
      rcases Nat.lt_trichotomy i m with him | rfl | hmi
      · exact .inl (ihg (by omega) (hbefore i hi him))
      · exact .inl (ihg (by omega) hgoal)
      · exact .inr ⟨m, hnm, hmi, ihf (by omega) hwait⟩
    | since => cases hf.1
    | xor | implies | iff | reserved => cases hnormal.1

theorem straight_eval_of_not_args {f : Formula} {t k o : Int64} (h : ¬ (0 ≤ t ∧ 0 ≤ k ∧ 0 ≤ o))
    (s : Encoder) (ρ : Assignment) :
    (straight f t k o s).2.encoding.graph.eval ρ (straight f t k o s).1.expr = false := by
  rw [straight]
  split
  · exact Graph.eval_falsity _ ρ
  split
  · exact Graph.eval_falsity _ ρ
  split
  · exact Graph.eval_falsity _ ρ
  · rename_i ht hk ho
    exact absurd ⟨Int64.not_lt.1 ht, Int64.not_lt.1 hk, Int64.not_lt.1 ho⟩ h

/-- A normal formula about the future whose atomic propositions are conditions has an encoding at
every time of a path without a loop, whatever the encoder was used for before.  If it holds under an
assignment, the formula holds on every infinite word that has the values of the assignment at the
times of the path, and any others later.  This is so for all bounds but the largest word. -/
theorem straight_holds_on_continuations [Solver] {m : Machine} {e : Encoding} {table : Table}
    {s : Encoder} (hbuilt : m.Built e) (huses : Uses m (fresh e table) s) {f : Formula}
    (hnormal : f.isNormal) (hf : f.isFuture)
    (hatoms : ∀ x ∈ f.atoms, ((condition false x).run s.encoding).1.isOk)
    (t : Int64) {k : Int64} (hk : k < Int64.maxValue) (o : Int64) :
    let r := straight f t k o s
    (0 ≤ t → 0 ≤ k → 0 ≤ o → r.1.error? = none) ∧
    ∀ ρ V, r.2.encoding.Agrees ρ V → r.2.encoding.graph.eval ρ r.1.expr = true →
      ∀ w : Nat → Letter, (∀ j ≤ k.toNatClampNeg,
        s.encoding.SameValues (w j) (V.word (o.toNatClampNeg + j))) →
      f.Holds (s.encoding.along w) t.toNatClampNeg := by
  intro r
  obtain ⟨wf, -⟩ := huses.wellFormed hbuilt.wellFormed.1 hbuilt.wellFormed.2
  have hmeets := straight_meets f t k o s wf
  have hok : 0 ≤ t → 0 ≤ k → 0 ≤ o → r.1.error? = none := by
    intro ht hk ho
    refine hmeets.succeeds.2 (Bool.and_eq_true_iff.2 ⟨?_, straightOk_of_isFuture hf ?_ k t⟩)
    · simp only [straightArgs, decide_eq_false (Int64.not_lt.2 ht),
        decide_eq_false (Int64.not_lt.2 hk), decide_eq_false (Int64.not_lt.2 ho)]
      rfl
    · exact fun x hx => (condition_isOk_iff wf.encoding).1 (hatoms x hx)
  refine ⟨hok, fun ρ V hV heval w hw => ?_⟩
  -- arguments that make no sense are encoded as false, so that they are in order here
  obtain ⟨ht, hk₀, ho⟩ : 0 ≤ t ∧ 0 ≤ k ∧ 0 ≤ o := by
    by_contra hargs
    exact absurd heval (Bool.eq_false_iff.1 (straight_eval_of_not_args hargs s ρ))
  have hinterprets := s.encoding.interprets_atoms.of_vars hmeets.evolves.vars
  rw [(hmeets.means (hok ht hk₀ ho) _ hinterprets).eval ρ V hV] at heval
  obtain ⟨n, hn, rfl⟩ := exists_ofNat ht
  obtain ⟨b, hb, rfl⟩ := exists_ofNat hk₀
  obtain ⟨a, ha, rfl⟩ := exists_ofNat ho
  simp only [Int64.toNatClampNeg_ofNat_of_lt hn, Int64.toNatClampNeg_ofNat_of_lt hb,
    Int64.toNatClampNeg_ofNat_of_lt ha] at hw ⊢
  have hsucc : b + 1 < 2 ^ 63 := by
    have hmax : Int64.ofNat b ≠ Int64.maxValue := fun hmax => Int64.lt_irrefl (hmax ▸ hk)
    rw [ne_eq, ofNat_eq_maxValue_iff hb] at hmax
    omega
  refine holds_of_straightValue (fun j hj x => ?_) hsucc hnormal hf hn heval
  have hvalue := conditionValue_congr wf.encoding (hw j hj) (hw j hj) x
  rw [atoms_onPath, ← hvalue]
  rfl

/-- A formula that is met before the end of the path, at a time in its middle. -/
theorem straight_holds_on_continuations_release :
    let f : Formula := .binary .releases (.unary .next (.atom (.symbol () "p")))
      (.unary .not (.atom (.symbol () "q")))
    let r := straight f 1 4 2 (fresh pairEncoding {})
    r.1.error? = none ∧ ∀ ρ V, r.2.encoding.Agrees ρ V →
      r.2.encoding.graph.eval ρ r.1.expr = true →
      ∀ w : Nat → Letter, (∀ j ≤ 4, pairEncoding.SameValues (w j) (V.word (2 + j))) →
      f.Holds (pairEncoding.along w) 1 := by
  intro f
  have haccepts : ∀ x ∈ [(.symbol () "p" : Expr), .symbol () "q"],
      pairEncoding.accepts false x := by decide
  have hatoms : ∀ x ∈ f.atoms, ((condition false x).run pairEncoding).1.isOk := fun x hx =>
    (condition_isOk_iff built_pairEncoding.wellFormed.1).2 (haccepts x hx)
  obtain ⟨hok, hholds⟩ := straight_holds_on_continuations (s := fresh pairEncoding {})
    built_pairEncoding .refl (f := f) rfl rfl hatoms 1 (k := 4) (by decide) 2
  exact ⟨hok (by decide) (by decide) (by decide), hholds⟩

/-- At the largest word the next time is an early one again, so that what comes next is looked up
there, and the encoding holds although it says nothing of the words that begin with the path. -/
theorem straight_next_at_largest :
    let f : Formula := .unary .next (.atom (.symbol () "p"))
    let r := straight f Int64.maxValue Int64.maxValue 0 (fresh pairEncoding {})
    f.isNormal ∧ f.isFuture ∧ r.1.error? = none ∧ ∃ ρ V, r.2.encoding.Agrees ρ V ∧
      r.2.encoding.graph.eval ρ r.1.expr = true ∧
      ∃ w : Nat → Letter, (∀ j ≤ Int64.maxValue.toNatClampNeg,
        pairEncoding.SameValues (w j) (V.word (0 + j))) ∧
      ¬ f.Holds (pairEncoding.along w) Int64.maxValue.toNatClampNeg := by
  intro f r
  have wf := wellFormed_of_entries (s := fresh pairEncoding {}) built_pairEncoding.wellFormed.1 rfl
  have hmeets := straight_meets f Int64.maxValue Int64.maxValue 0 (fresh pairEncoding {}) wf
  have hok : r.1.error? = none := hmeets.succeeds.2 (by decide)
  -- the first variable holds at one time only, which is the one after the largest
  let V := View.ofWord fun n i => i == 0 && n == 2 ^ 63
  have hV := r.2.encoding.agrees_assign V
  have hmeans := hmeets.means hok _ (pairEncoding.interprets_atoms.of_vars hmeets.evolves.vars)
  refine ⟨rfl, rfl, hok, _, V, hV, (hmeans.eval _ V hV).trans rfl, fun _ _ => false,
    fun j hj i _ => ?_, nofun⟩
  have hlt : j < 2 ^ 63 := Nat.lt_of_le_of_lt hj (by decide)
  rw [Nat.zero_add, View.word_ofWord _ (by omega), beq_false_of_ne (Nat.ne_of_lt hlt),
    Bool.and_false]

end Encoder

end Lasso
