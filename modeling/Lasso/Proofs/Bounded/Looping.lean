import Lasso.Proofs.Bounded.Construction

/-! # Encodings on paths with a loop

The encoding of a formula at a time of a looping path has the value of the formula there.  It binds
keys of the formula and of what is beneath it only.
-/

namespace Lasso

set_option autoImplicit false

namespace Encoder

theorem unless_meets {c : Prop} [Decidable c] {body : EncodeM Encoded} {keeps : Key → Prop}
    {ok : (Expr → Bool) → Bool} {φ : Atoms → View → Bool} (h : ¬ c → Meets body keeps ok φ) :
    Meets (if c then return ⟨Graph.falsity, none⟩ else body) keeps
      (fun acc => decide c || ok acc) (fun p V => !decide c && φ p V) := by
  by_cases hc : c
  · rw [if_pos hc]
    exact falsity_meets.congr (fun _ => by simp [hc]) fun _ _ => by simp [hc]
  · rw [if_neg hc]
    exact (h hc).congr (fun _ => by simp [hc]) fun _ _ => by simp [hc]

section

variable {goal wait : Int64 → EncodeM Encoded} {keeps : Key → Prop}
  {ok ok' : Int64 → (Expr → Bool) → Bool} {φ φ' : Int64 → Atoms → View → Bool}
  (hgoal : ∀ t, Meets (goal t) keeps (ok t) (φ t))

include hgoal

theorem globally_meets (ts : List Int64) :
    Meets (joinTimes Graph.and goal ts Graph.truth) keeps (fun acc => ts.all (ok · acc))
      (fun p V => ts.all (φ · p V)) := by
  intro s wf
  refine (joinTimes_encodes Graph.and_computes ts wf (fun t _ _ hs => (hgoal t).leads hs)
    (means_truth wf)).congr rfl fun p V => ?_
  rw [Graph.foldl_and, Bool.true_and]

theorem eventually_meets (ts : List Int64) :
    Meets (joinTimes Graph.or goal ts Graph.falsity) keeps (fun acc => ts.all (ok · acc))
      (fun p V => ts.any (φ · p V)) := by
  intro s wf
  refine (joinTimes_encodes Graph.or_computes ts wf (fun t _ _ hs => (hgoal t).leads hs)
    (means_falsity wf)).congr rfl fun p V => ?_
  rw [Graph.foldl_or, Bool.false_or]

variable (hwait : ∀ t, Meets (wait t) keeps (ok' t) (φ' t))

include hwait

theorem until_meets (ts : List Int64) :
    Meets (unfoldTimes Graph.or Graph.and goal wait ts.reverse Graph.falsity) keeps
      (fun acc => ts.all fun t => ok t acc && ok' t acc)
      (fun p V => untilValue (φ · p V) (φ' · p V) ts false) := by
  intro s wf
  refine (unfoldTimes_encodes Graph.or_computes Graph.and_computes ts.reverse
    (fun t _ => hgoal t) (fun t _ => hwait t) wf (means_falsity wf)).congr ?_ fun p V => ?_
  · rw [List.all_reverse]
  · rw [List.foldl_reverse]
    rfl

theorem releases_meets (ts : List Int64) (last : Int64) :
    Meets (goal last >>= fun r => if r.failed then return r else
        unfoldTimes Graph.and Graph.or goal wait ts.reverse r.expr) keeps
      (fun acc => ok last acc && ts.all fun t => ok t acc && ok' t acc)
      (fun p V => releaseValue (φ · p V) (φ' · p V) ts (φ last p V)) := by
  intro s wf
  have hlast := hgoal last s wf
  refine hlast.bind fun hmeans => ?_
  have hrest := unfoldTimes_encodes Graph.and_computes Graph.or_computes ts.reverse
    (fun t _ => hgoal t) (fun t _ => hwait t) hlast.evolves.wf hmeans
  rw [hlast.evolves.accepts_eq] at hrest
  refine hrest.congr ?_ fun p V => ?_
  · rw [List.all_reverse]
  · rw [List.foldl_reverse]
    rfl

end

/-- The keys that are at least as large as a formula. -/
def Above (f : Formula) (key : Key) : Prop := sizeOf f ≤ sizeOf key.formula

section

variable {bound : Int64} {loop : Loop} {offset : Int64}

abbrev Outside (bound time : Int64) : Prop := bound = 0 ∨ time > bound

/-- A formula is encoded by a part that binds only keys beneath it. -/
theorem position_meets (hloop : loop ≠ .none) {f : Formula} {time : Int64} {body : EncodeM Encoded}
    {ok : (Expr → Bool) → Bool} {φ : Atoms → View → Bool} (hbody : Meets body (Above f) ok φ)
    (hok : ∀ acc, (decide (Outside bound time) || ok acc) = loopingOk acc bound loop f time)
    (hφ : ∀ p V, (!decide (Outside bound time) && φ p V) =
      loopingValue (p.onPath offset V) bound loop f time) :
    Meets (remember ⟨f, time, bound, loop, offset⟩
        (if Outside bound time then return ⟨Graph.falsity, none⟩ else body))
      (fun key => sizeOf f < sizeOf key.formula) (fun acc => loopingOk acc bound loop f time)
      (fun p V => loopingValue (p.onPath offset V) bound loop f time) := by
  have hkeyok : ∀ acc, (⟨f, time, bound, loop, offset⟩ : Key).ok acc =
      loopingOk acc bound loop f time := fun acc => if_neg hloop
  have hkeyvalue : ∀ p V, (⟨f, time, bound, loop, offset⟩ : Key).value p V =
      loopingValue (p.onPath offset V) bound loop f time := fun p V => if_neg hloop
  have hguarded := (unless_meets (c := Outside bound time) fun _ => hbody).congr
    (fun acc => (hok acc).trans (hkeyok acc).symm) fun p V => (hφ p V).trans (hkeyvalue p V).symm
  refine ((remember_meets (Nat.le_refl (sizeOf f)) hguarded).mono ?_).congr hkeyok hkeyvalue
  intro key hkey
  refine ⟨Nat.le_of_lt hkey, ?_⟩
  rintro rfl
  exact Nat.lt_irrefl _ hkey

theorem encodeLooping_meets (hloop : loop ≠ .none) (f : Formula) (time : Int64) :
    Meets (encodeLooping bound loop offset f time) (fun key => sizeOf f < sizeOf key.formula)
      (fun acc => loopingOk acc bound loop f time)
      (fun p V => loopingValue (p.onPath offset V) bound loop f time) := by
  -- a part binds keys of formulas beneath the whole only, so that the key of the whole is still
  -- free when it is bound
  induction f generalizing time with
  | atom e =>
    rw [encodeLooping]
    exact position_meets hloop (proposition_meets e (time + offset)) (fun acc => rfl) fun p V => rfl
  | unary op f ih =>
    rw [encodeLooping]
    have hpart : ∀ t, Meets (encodeLooping bound loop offset f t) (Above (.unary op f))
        (fun acc => loopingOk acc bound loop f t)
        (fun p V => loopingValue (p.onPath offset V) bound loop f t) := fun t =>
      (ih t).mono fun key hkey => by
        simp only [Above, Formula.unary.sizeOf_spec] at hkey
        omega
    cases op with
    | not => exact position_meets hloop (hpart time).not (fun acc => rfl) fun p V => rfl
    | next => exact position_meets hloop (hpart _) (fun acc => rfl) fun p V => rfl
    | globally =>
      exact position_meets hloop (globally_meets hpart _) (fun acc => rfl) fun p V => rfl
    | eventually =>
      exact position_meets hloop (eventually_meets hpart _) (fun acc => rfl) fun p V => rfl
    | _ => exact position_meets hloop (fail_meets _) (fun acc => rfl) fun p V => rfl
  | binary op f g ihf ihg =>
    rw [encodeLooping]
    have hleft : ∀ t, Meets (encodeLooping bound loop offset f t) (Above (.binary op f g))
        (fun acc => loopingOk acc bound loop f t)
        (fun p V => loopingValue (p.onPath offset V) bound loop f t) := fun t =>
      (ihf t).mono fun key hkey => by
        simp only [Above, Formula.binary.sizeOf_spec] at hkey
        omega
    have hright : ∀ t, Meets (encodeLooping bound loop offset g t) (Above (.binary op f g))
        (fun acc => loopingOk acc bound loop g t)
        (fun p V => loopingValue (p.onPath offset V) bound loop g t) := fun t =>
      (ihg t).mono fun key hkey => by
        simp only [Above, Formula.binary.sizeOf_spec] at hkey
        omega
    have hconnective : ∀ join, connective? op = some join →
        Meets (both join (encodeLooping bound loop offset f time)
          (encodeLooping bound loop offset g time)) (Above (.binary op f g))
          (fun acc => loopingOk acc bound loop f time && loopingOk acc bound loop g time)
          (fun p V => op.apply (loopingValue (p.onPath offset V) bound loop f time)
            (loopingValue (p.onPath offset V) bound loop g time)) := fun join hjoin =>
      both_meets (connective?_computes hjoin) (hleft time) (hright time)
    cases op with
    | untl =>
      exact position_meets hloop (until_meets hright hleft _) (fun acc => rfl) fun p V => rfl
    | releases =>
      exact position_meets hloop (releases_meets hright hleft _ _) (fun acc => rfl) fun p V => rfl
    | and | or | xor | implies | iff =>
      exact position_meets hloop (hconnective _ rfl) (fun acc => rfl) fun p V => rfl
    | since | reserved =>
      exact position_meets hloop (fail_meets _) (fun acc => rfl) fun p V => rfl

end

end Encoder

end Lasso
