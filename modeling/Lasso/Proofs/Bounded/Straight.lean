import Lasso.Proofs.Bounded.Looping
import Lasso.Proofs.Formula.Fragment

/-! # Encodings on paths without a loop

The encoding of a formula at a time of a path without a loop has the value of the formula there.
It binds keys of what is beneath the formula, and of the formula itself at that time and later.
-/

namespace Lasso

set_option autoImplicit false

namespace Encoder

section

variable {m₁ m₂ m₃ : EncodeM Encoded} {keeps : Key → Prop} {ok₁ ok₂ ok₃ : (Expr → Bool) → Bool}
  {φ₁ φ₂ φ₃ : Atoms → View → Bool}

theorem pair_meets {join : Lit → Lit → StateM Graph Lit} {op : Bool → Bool → Bool}
    (hjoin : Graph.Computes join op) (h₁ : Meets m₁ keeps ok₁ φ₁) (h₂ : Meets m₂ keeps ok₂ φ₂) :
    Meets (do
        let a ← m₁
        let b ← m₂
        return ⟨← onGraph (join a.expr b.expr), a.error?.or b.error?⟩) keeps
      (fun acc => ok₁ acc && ok₂ acc) (fun p V => op (φ₁ p V) (φ₂ p V)) := by
  intro s wf
  have ha := h₁ s wf
  have hb := h₂ _ ha.evolves.wf
  rw [ha.evolves.accepts_eq] at hb
  obtain ⟨hev, hmem⟩ :=
    onGraph_evolves hjoin hb.evolves.wf (hb.evolves.mem ha.mem) hb.mem keeps
  refine ⟨(ha.evolves.trans hb.evolves).trans hev, hmem, ?_, fun he => ?_⟩
  · rw [Bool.and_eq_true, ← ha.succeeds, ← hb.succeeds]
    exact Option.or_eq_none_iff
  · obtain ⟨hea, heb⟩ := Option.or_eq_none_iff.1 he
    exact onGraph_means hjoin hb.evolves.wf
      (hb.evolves.means ha.evolves.wf (ha.means hea)) (hb.means heb)

theorem triple_meets {outer inner : Lit → Lit → StateM Graph Lit} {out inn : Bool → Bool → Bool}
    (houter : Graph.Computes outer out) (hinner : Graph.Computes inner inn)
    (h₁ : Meets m₁ keeps ok₁ φ₁) (h₂ : Meets m₂ keeps ok₂ φ₂) (h₃ : Meets m₃ keeps ok₃ φ₃) :
    Meets (do
        let a ← m₁
        let b ← m₂
        let c ← m₃
        let wait ← onGraph (inner b.expr c.expr)
        return ⟨← onGraph (outer a.expr wait), (a.error?.or b.error?).or c.error?⟩) keeps
      (fun acc => (ok₁ acc && ok₂ acc) && ok₃ acc)
      (fun p V => out (φ₁ p V) (inn (φ₂ p V) (φ₃ p V))) := by
  intro s wf
  have ha := h₁ s wf
  have hb := h₂ _ ha.evolves.wf
  rw [ha.evolves.accepts_eq] at hb
  have hab := ha.evolves.trans hb.evolves
  have hc := h₃ _ hab.wf
  rw [hab.accepts_eq] at hc
  have hbc := hb.evolves.trans hc.evolves
  obtain ⟨hev, hmem⟩ :=
    onGraph_evolves hinner hc.evolves.wf (hc.evolves.mem hb.mem) hc.mem keeps
  obtain ⟨hev', hmem'⟩ := onGraph_evolves houter hev.wf (hev.mem (hbc.mem ha.mem)) hmem keeps
  refine ⟨(hab.trans hc.evolves).trans (hev.trans hev'), hmem', ?_, fun he => ?_⟩
  · rw [Bool.and_eq_true, Bool.and_eq_true, ← ha.succeeds, ← hb.succeeds, ← hc.succeeds]
    exact Option.or_eq_none_iff.trans (and_congr_left' Option.or_eq_none_iff)
  · obtain ⟨hab', hec⟩ := Option.or_eq_none_iff.1 he
    obtain ⟨hea, heb⟩ := Option.or_eq_none_iff.1 hab'
    have hmeans := onGraph_means hinner hc.evolves.wf
      (hc.evolves.means hb.evolves.wf (hb.means heb)) (hc.means hec)
    exact onGraph_means houter hev.wf
      (hev.means hc.evolves.wf (hbc.means ha.evolves.wf (ha.means hea))) hmeans

end

/-- The keys that are left alone by encoding a formula from a time on. -/
def Before (f : Formula) (time : Int64) (key : Key) : Prop :=
  sizeOf f < sizeOf key.formula ∨ (key.formula = f ∧ key.time < time)

/-- The keys that are left alone by what a formula at a time is made of. -/
def Upto (f : Formula) (time : Int64) (key : Key) : Prop :=
  sizeOf f < sizeOf key.formula ∨ (key.formula = f ∧ key.time ≤ time)

theorem Upto.before_of_lt {f g : Formula} {time t : Int64} {key : Key} (h : Upto f time key)
    (hsize : sizeOf g < sizeOf f) : Before g t key := by
  rcases h with h | ⟨h, -⟩
  · exact .inl (Nat.lt_trans hsize h)
  · exact .inl (h ▸ hsize)

theorem Upto.before_add_one {f : Formula} {time : Int64} {key : Key} (h : Upto f time key)
    (hlt : time < time + 1) : Before f (time + 1) key := by
  rcases h with h | ⟨h, hle⟩
  · exact .inl h
  · exact .inr ⟨h, Int64.lt_of_le_of_lt hle hlt⟩

section

variable {bound offset : Int64}

theorem straightPosition_meets {f : Formula} {time : Int64} {body : EncodeM Encoded}
    {ok : (Expr → Bool) → Bool} {φ : Atoms → View → Bool}
    (hbody : time ≤ bound → Meets body (Upto f time) ok φ)
    (hok : ∀ acc, (decide (time > bound) || ok acc) = straightOk acc bound f time)
    (hφ : ∀ p V, (!decide (time > bound) && φ p V) =
      straightValue (p.onPath offset V) bound f time) :
    Meets (position f time bound offset body) (Before f time)
      (fun acc => straightOk acc bound f time)
      (fun p V => straightValue (p.onPath offset V) bound f time) := by
  have hkeyok : ∀ acc, (⟨f, time, bound, .none, offset⟩ : Key).ok acc =
      straightOk acc bound f time := fun acc => if_pos rfl
  have hkeyvalue : ∀ p V, (⟨f, time, bound, .none, offset⟩ : Key).value p V =
      straightValue (p.onPath offset V) bound f time := fun p V => if_pos rfl
  have hguarded := (unless_meets (c := time > bound) fun h => hbody (Int64.not_lt.1 h)).congr
    (fun acc => (hok acc).trans (hkeyok acc).symm) fun p V => (hφ p V).trans (hkeyvalue p V).symm
  refine ((remember_meets ?_ hguarded).mono ?_).congr hkeyok hkeyvalue
  · exact .inr ⟨rfl, Int64.le_refl time⟩
  · rintro key (hsize | ⟨hf, hlt⟩)
    · refine ⟨.inl hsize, ?_⟩
      rintro rfl
      exact Nat.lt_irrefl _ hsize
    · refine ⟨.inr ⟨hf, Int64.le_of_lt hlt⟩, ?_⟩
      rintro rfl
      exact Int64.lt_irrefl hlt

theorem straightOk_of_gt {acc : Expr → Bool} {f : Formula} {time : Int64} (h : time > bound) :
    straightOk acc bound f time = true := by
  cases f <;> simp [straightOk, h]

theorem straightValue_of_gt {p : Int64 → Expr → Bool} {f : Formula} {time : Int64}
    (h : time > bound) : straightValue p bound f time = false := by
  cases f <;> simp [straightValue, h]

theorem timesUpTo_eq {time : Int64} (h : time ≤ bound) :
    timesUpTo time bound = time :: if time < bound then timesUpTo (time + 1) bound else [] := by
  have hle := Int64.le_iff_toInt_le.1 h
  unfold timesUpTo
  split
  · rename_i hlt
    rw [toInt_add_one_of_lt hlt,
      show (bound.toInt + 1 - time.toInt).toNat = (bound.toInt + 1 - (time.toInt + 1)).toNat + 1 by
        have := Int64.lt_iff_toInt_lt.1 hlt
        omega]
    rfl
  · rename_i hge
    have := Int64.le_iff_toInt_le.1 (Int64.not_lt.1 hge)
    rw [show (bound.toInt + 1 - time.toInt).toNat = 1 by omega]
    rfl

theorem decide_gt_of_le {time : Int64} (h : time ≤ bound) : decide (time > bound) = false :=
  decide_eq_false (Int64.not_lt.2 h)

theorem add_one_le_of_lt {time : Int64} (h : time < bound) : time + 1 ≤ bound := by
  rw [Int64.le_iff_toInt_le, toInt_add_one_of_lt h]
  have := Int64.lt_iff_toInt_lt.1 h
  omega

section

variable {p : Int64 → Expr → Bool} {acc : Expr → Bool} {f g : Formula} {time : Int64}

theorem straightValue_eventually (h : time ≤ bound) :
    straightValue p bound (.unary .eventually f) time = (straightValue p bound f time ||
      if time < bound then straightValue p bound (.unary .eventually f) (time + 1) else false) := by
  simp only [straightValue, decide_gt_of_le h, Bool.not_false, Bool.true_and]
  rw [timesUpTo_eq h]
  by_cases hlt : time < bound
  · simp [hlt, Int64.not_lt.2 (add_one_le_of_lt hlt)]
  · simp [hlt]

theorem straightValue_untl (h : time ≤ bound) :
    straightValue p bound (.binary .untl f g) time = (straightValue p bound g time ||
      (straightValue p bound f time && if time < bound
        then straightValue p bound (.binary .untl f g) (time + 1) else false)) := by
  simp only [straightValue, decide_gt_of_le h, Bool.not_false, Bool.true_and, untilValue]
  rw [timesUpTo_eq h]
  by_cases hlt : time < bound
  · simp [hlt, Int64.not_lt.2 (add_one_le_of_lt hlt)]
  · simp [hlt]

theorem straightValue_releases (h : time ≤ bound) :
    straightValue p bound (.binary .releases f g) time = (straightValue p bound g time &&
      (straightValue p bound f time || if time < bound
        then straightValue p bound (.binary .releases f g) (time + 1) else false)) := by
  simp only [straightValue, decide_gt_of_le h, Bool.not_false, Bool.true_and, releaseValue]
  rw [timesUpTo_eq h]
  by_cases hlt : time < bound
  · simp [hlt, Int64.not_lt.2 (add_one_le_of_lt hlt)]
  · simp [hlt]

theorem straightOk_eventually (h : time ≤ bound) :
    straightOk acc bound (.unary .eventually f) time = (straightOk acc bound f time &&
      if time < bound then straightOk acc bound (.unary .eventually f) (time + 1) else true) := by
  simp only [straightOk, decide_gt_of_le h, Bool.false_or]
  rw [timesUpTo_eq h]
  by_cases hlt : time < bound
  · simp [hlt, Int64.not_lt.2 (add_one_le_of_lt hlt)]
  · simp [hlt]

theorem straightOk_unfolded {op : BinaryOp} (hop : op.isUnfolded) (h : time ≤ bound) :
    straightOk acc bound (.binary op f g) time =
      ((straightOk acc bound g time && straightOk acc bound f time) &&
        if time < bound then straightOk acc bound (.binary op f g) (time + 1) else true) := by
  cases op with
  | untl | releases =>
    simp only [straightOk, decide_gt_of_le h, Bool.false_or]
    rw [timesUpTo_eq h]
    by_cases hlt : time < bound
    · simp [hlt, Int64.not_lt.2 (add_one_le_of_lt hlt)]
    · simp [hlt]
  | _ => cases hop

end

/-- Beyond the bound there is nothing to show of a position. -/
theorem unfolded_meets {body : EncodeM Encoded} {f : Formula} {time : Int64}
    {ok : (Expr → Bool) → Bool} {φ : Atoms → View → Bool}
    (hbody : time ≤ bound → Meets body (Upto f time) ok φ)
    (hok : time ≤ bound → ∀ acc, straightOk acc bound f time = ok acc)
    (hφ : time ≤ bound → ∀ p V, straightValue (p.onPath offset V) bound f time = φ p V) :
    Meets (position f time bound offset body) (Before f time)
      (fun acc => straightOk acc bound f time)
      (fun p V => straightValue (p.onPath offset V) bound f time) := by
  refine straightPosition_meets hbody (fun acc => ?_) fun p V => ?_
  · by_cases hle : time ≤ bound
    · rw [decide_gt_of_le hle, Bool.false_or, hok hle]
    · rw [decide_eq_true (Int64.not_le.1 hle), Bool.true_or, straightOk_of_gt (Int64.not_le.1 hle)]
  · by_cases hle : time ≤ bound
    · rw [decide_gt_of_le hle, Bool.not_false, Bool.true_and, hφ hle]
    · rw [decide_eq_true (Int64.not_le.1 hle), Bool.not_true, Bool.false_and,
        straightValue_of_gt (Int64.not_le.1 hle)]

/-- What an unfolding refers to at the next time. -/
def encodeLater (bound offset : Int64) (f : Formula) (time : Int64) : EncodeM Encoded :=
  if time < bound then encodeStraight bound offset f (time + 1)
  else encodeStraight.beyond bound offset f (time + 1)

theorem later_meets {f : Formula} {time : Int64} (hle : time ≤ bound)
    (hself : time < bound → Meets (encodeStraight bound offset f (time + 1)) (Before f (time + 1))
      (fun acc => straightOk acc bound f (time + 1))
      (fun p V => straightValue (p.onPath offset V) bound f (time + 1))) :
    Meets (encodeLater bound offset f time) (Upto f time)
      (fun acc => if time < bound then straightOk acc bound f (time + 1) else true)
      (fun p V => if time < bound then straightValue (p.onPath offset V) bound f (time + 1)
        else false) := by
  unfold encodeLater
  by_cases hlt : time < bound
  · simp only [hlt, if_true]
    have hnext : time < time + 1 := by
      rw [Int64.lt_iff_toInt_lt, toInt_add_one_of_lt hlt]
      omega
    exact (hself hlt).mono fun key hkey => hkey.before_add_one hnext
  · simp only [hlt, if_false]
    unfold encodeStraight.beyond
    split
    · rename_i hgt
      have hbody : Meets (return ⟨Graph.falsity, none⟩) (fun _ => True)
          (⟨f, time + 1, bound, .none, offset⟩ : Key).ok
          (⟨f, time + 1, bound, .none, offset⟩ : Key).value :=
        falsity_meets.congr (fun acc => ((if_pos rfl).trans (straightOk_of_gt hgt)).symm)
          fun p V => ((if_pos rfl).trans (straightValue_of_gt hgt)).symm
      refine ((remember_meets trivial hbody).mono ?_).congr
        (fun acc => (if_pos rfl).trans (straightOk_of_gt hgt))
        fun p V => (if_pos rfl).trans (straightValue_of_gt hgt)
      rintro key hkey
      refine ⟨trivial, ?_⟩
      rintro rfl
      rcases hkey with hsize | ⟨-, hkey⟩
      · exact Nat.lt_irrefl _ hsize
      · exact Int64.lt_irrefl (Int64.lt_of_le_of_lt (Int64.le_trans hkey hle) hgt)
    · exact falsity_meets

theorem encodeStraight_eventually (f : Formula) (time : Int64) :
    encodeStraight bound offset (.unary .eventually f) time =
      position (.unary .eventually f) time bound offset (do
        let now ← encodeStraight bound offset f time
        let later ← encodeLater bound offset (.unary .eventually f) time
        return ⟨← onGraph (Graph.or now.expr later.expr), now.error?.or later.error?⟩) := by
  rw [encodeStraight]
  by_cases h : time < bound
  · simp only [encodeLater, h, dite_true, if_true]
  · simp only [encodeLater, h, dite_false, if_false]

theorem encodeStraight_untl (f g : Formula) (time : Int64) :
    encodeStraight bound offset (.binary .untl f g) time =
      position (.binary .untl f g) time bound offset (do
        let goal ← encodeStraight bound offset g time
        let now ← encodeStraight bound offset f time
        let later ← encodeLater bound offset (.binary .untl f g) time
        let wait ← onGraph (Graph.and now.expr later.expr)
        return ⟨← onGraph (Graph.or goal.expr wait),
          (goal.error?.or now.error?).or later.error?⟩) := by
  rw [encodeStraight]
  by_cases h : time < bound
  · simp only [encodeLater, h, dite_true, if_true]
  · simp only [encodeLater, h, dite_false, if_false]

theorem encodeStraight_releases (f g : Formula) (time : Int64) :
    encodeStraight bound offset (.binary .releases f g) time =
      position (.binary .releases f g) time bound offset (do
        let goal ← encodeStraight bound offset g time
        let now ← encodeStraight bound offset f time
        let later ← encodeLater bound offset (.binary .releases f g) time
        let wait ← onGraph (Graph.or now.expr later.expr)
        return ⟨← onGraph (Graph.and goal.expr wait),
          (goal.error?.or now.error?).or later.error?⟩) := by
  rw [encodeStraight]
  by_cases h : time < bound
  · simp only [encodeLater, h, dite_true, if_true]
  · simp only [encodeLater, h, dite_false, if_false]

/-- Up to a bound, something holds at all times if it holds wherever it does at the next. -/
@[elab_as_elim]
theorem induction_later (bound : Int64) {P : Int64 → Prop}
    (hstep : ∀ time, (time < bound → P (time + 1)) → P time) (time : Int64) : P time := by
  generalize hn : (bound.toInt - time.toInt).toNat = n
  induction n using Nat.strongRecOn generalizing time with
  | _ n ih =>
    refine hstep time fun hlt => ih _ ?_ (time + 1) rfl
    have := Int64.lt_iff_toInt_lt.1 hlt
    rw [toInt_add_one_of_lt hlt]
    omega

theorem encodeStraight_meets (f : Formula) (time : Int64) :
    Meets (encodeStraight bound offset f time) (Before f time)
      (fun acc => straightOk acc bound f time)
      (fun p V => straightValue (p.onPath offset V) bound f time) := by
  -- operators that unfold into themselves one step later take an inner induction on the time left
  induction f generalizing time with
  | atom e =>
    rw [encodeStraight]
    exact straightPosition_meets (fun _ => proposition_meets e (time + offset)) (fun acc => rfl)
      fun p V => rfl
  | unary op f ih =>
    have hsize : sizeOf f < sizeOf (Formula.unary op f) := by
      simp only [Formula.unary.sizeOf_spec]
      omega
    have hpart : ∀ t t', Meets (encodeStraight bound offset f t) (Upto (.unary op f) t')
        (fun acc => straightOk acc bound f t)
        (fun p V => straightValue (p.onPath offset V) bound f t) := fun t t' =>
      (ih t).mono fun key hkey => hkey.before_of_lt hsize
    cases op with
    | not =>
      rw [encodeStraight]
      exact straightPosition_meets (fun _ => (hpart time time).not) (fun acc => rfl) fun p V => rfl
    | next =>
      rw [encodeStraight]
      exact straightPosition_meets (fun _ => hpart (time + 1) time) (fun acc => rfl) fun p V => rfl
    | globally =>
      rw [encodeStraight]
      exact straightPosition_meets (fun _ => falsity_meets) (fun acc => rfl) fun p V => rfl
    | eventually =>
      refine induction_later bound (fun time hself => ?_) time
      rw [encodeStraight_eventually]
      exact unfolded_meets (fun hle => pair_meets Graph.or_computes (hpart time time)
        (later_meets hle hself)) (fun hle acc => straightOk_eventually hle)
        fun hle p V => straightValue_eventually hle
    | previous | once | historically =>
      rw [encodeStraight.eq_def]
      exact straightPosition_meets (fun _ => fail_meets _) (fun acc => rfl) fun p V => rfl
  | binary op f g ihf ihg =>
    have hleft : ∀ t t', Meets (encodeStraight bound offset f t) (Upto (.binary op f g) t')
        (fun acc => straightOk acc bound f t)
        (fun p V => straightValue (p.onPath offset V) bound f t) := fun t t' =>
      (ihf t).mono fun key hkey => hkey.before_of_lt (by
        simp only [Formula.binary.sizeOf_spec]
        omega)
    have hright : ∀ t t', Meets (encodeStraight bound offset g t) (Upto (.binary op f g) t')
        (fun acc => straightOk acc bound g t)
        (fun p V => straightValue (p.onPath offset V) bound g t) := fun t t' =>
      (ihg t).mono fun key hkey => hkey.before_of_lt (by
        simp only [Formula.binary.sizeOf_spec]
        omega)
    have hconnective : ∀ join, connective? op = some join →
        Meets (both join (encodeStraight bound offset f time)
          (encodeStraight bound offset g time)) (Upto (.binary op f g) time)
          (fun acc => straightOk acc bound f time && straightOk acc bound g time)
          (fun p V => op.apply (straightValue (p.onPath offset V) bound f time)
            (straightValue (p.onPath offset V) bound g time)) := fun join hjoin =>
      both_meets (connective?_computes hjoin) (hleft time time) (hright time time)
    cases op with
    | untl =>
      refine induction_later bound (fun time hself => ?_) time
      rw [encodeStraight_untl]
      exact unfolded_meets (fun hle => triple_meets Graph.or_computes Graph.and_computes
        (hright time time) (hleft time time) (later_meets hle hself))
        (fun hle acc => straightOk_unfolded rfl hle) fun hle p V => straightValue_untl hle
    | releases =>
      refine induction_later bound (fun time hself => ?_) time
      rw [encodeStraight_releases]
      exact unfolded_meets (fun hle => triple_meets Graph.and_computes Graph.or_computes
        (hright time time) (hleft time time) (later_meets hle hself))
        (fun hle acc => straightOk_unfolded rfl hle) fun hle p V => straightValue_releases hle
    | and | or | xor | implies | iff =>
      rw [encodeStraight.eq_def]
      exact straightPosition_meets (fun _ => hconnective _ rfl) (fun acc => rfl) fun p V => rfl
    | since | reserved =>
      rw [encodeStraight.eq_def]
      exact straightPosition_meets (fun _ => fail_meets _) (fun acc => rfl) fun p V => rfl

end

end Encoder

end Lasso
