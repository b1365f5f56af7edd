import Lasso.Proofs.Bounded.Memory
import Lasso.Proofs.Graph.Cone

/-! # Relations that the recursion respects

A relation between encodings is compatible if every construction of the recursion keeps it.  Then
two runs of the recursion are related as soon as their atomic propositions are, at the times at
which the recursion comes upon them.
-/

namespace Lasso

set_option autoImplicit false

namespace Encoder

/-- A relation that is kept by what the recursion makes of the encodings of parts. -/
structure Compatible (R : EncodeM Encoded → EncodeM Encoded → Prop) : Prop where
  falsity : R (return ⟨Graph.falsity, none⟩) (return ⟨Graph.falsity, none⟩)
  fail : ∀ err : EncodeError, R (return .fail err) (return .fail err)
  not : ∀ {x y : EncodeM Encoded}, R x y → R (do return (← x).not) (do return (← y).not)
  both : ∀ {join : Lit → Lit → StateM Graph Lit}, Graph.Mixes join →
    ∀ {x y x' y' : EncodeM Encoded}, R x y → R x' y' → R (both join x x') (both join y y')
  pair : ∀ {join : Lit → Lit → StateM Graph Lit}, Graph.Mixes join →
    ∀ {x y x' y' : EncodeM Encoded}, R x y → R x' y' →
    R (do
        let now ← x
        let later ← x'
        return ⟨← onGraph (join now.expr later.expr), now.error?.or later.error?⟩)
      (do
        let now ← y
        let later ← y'
        return ⟨← onGraph (join now.expr later.expr), now.error?.or later.error?⟩)
  triple : ∀ {outer inner : Lit → Lit → StateM Graph Lit}, Graph.Mixes outer → Graph.Mixes inner →
    ∀ {x y x' y' x'' y'' : EncodeM Encoded}, R x y → R x' y' → R x'' y'' →
    R (do
        let goal ← x
        let now ← x'
        let later ← x''
        let wait ← onGraph (inner now.expr later.expr)
        return ⟨← onGraph (outer goal.expr wait), (goal.error?.or now.error?).or later.error?⟩)
      (do
        let goal ← y
        let now ← y'
        let later ← y''
        let wait ← onGraph (inner now.expr later.expr)
        return ⟨← onGraph (outer goal.expr wait), (goal.error?.or now.error?).or later.error?⟩)
  joinTimes : ∀ {join : Lit → Lit → StateM Graph Lit}, Graph.Mixes join →
    ∀ {x y : Int64 → EncodeM Encoded} (ts : List Int64) (b : Bool), (∀ t ∈ ts, R (x t) (y t)) →
    R (joinTimes join x ts (Graph.ofBool b)) (joinTimes join y ts (Graph.ofBool b))
  unfoldTimes : ∀ {outer inner : Lit → Lit → StateM Graph Lit}, Graph.Mixes outer →
    Graph.Mixes inner → ∀ {x y x' y' : Int64 → EncodeM Encoded} (ts : List Int64) (b : Bool),
    (∀ t ∈ ts, R (x t) (y t)) → (∀ t ∈ ts, R (x' t) (y' t)) →
    R (unfoldTimes outer inner x x' ts (Graph.ofBool b))
      (unfoldTimes outer inner y y' ts (Graph.ofBool b))
  unfoldOnto : ∀ {outer inner : Lit → Lit → StateM Graph Lit}, Graph.Mixes outer →
    Graph.Mixes inner → ∀ {last last' : EncodeM Encoded} {x y x' y' : Int64 → EncodeM Encoded}
    (ts : List Int64), R last last' → (∀ t ∈ ts, R (x t) (y t)) → (∀ t ∈ ts, R (x' t) (y' t)) →
    R (do
        let r ← last
        if r.failed then return r
        Encoder.unfoldTimes outer inner x x' ts r.expr)
      (do
        let r ← last'
        if r.failed then return r
        Encoder.unfoldTimes outer inner y y' ts r.expr)

theorem ite_related {R : EncodeM Encoded → EncodeM Encoded → Prop} {c : Prop} [Decidable c]
    {x y x' y' : EncodeM Encoded} (hx : c → R x y) (hx' : ¬ c → R x' y') :
    R (if c then x else x') (if c then y else y') := by
  by_cases hc : c
  · rw [if_pos hc, if_pos hc]
    exact hx hc
  · rw [if_neg hc, if_neg hc]
    exact hx' hc

section

variable {R : EncodeM Encoded → EncodeM Encoded → Prop} (h : Compatible R)
  {bound : Int64} (offset offset' : Int64) {T : Int64 → Prop}

include h

theorem Compatible.position {f : Formula} {t : Int64} {x y : EncodeM Encoded}
    (hxy : t ≤ bound → R x y) :
    R (positionBy forget f t bound offset x) (positionBy forget f t bound offset' y) :=
  ite_related (fun _ => h.falsity) fun ht => hxy (Int64.not_lt.1 ht)

/-- Without a loop the recursion goes on one step later, up to the step after the bound. -/
theorem Compatible.straight (hnext : ∀ t, T t → t ≤ bound → T (t + 1))
    (hatom : ∀ p t, T t → t ≤ bound → R (proposition p (t + offset)) (proposition p (t + offset')))
    (f : Formula) (t : Int64) (ht : T t) :
    R (encodeStraightBy forget bound offset f t) (encodeStraightBy forget bound offset' f t) := by
  have hlater : ∀ (g : Formula) (u : Int64),
      (u < bound → R (encodeStraightBy forget bound offset g (u + 1))
        (encodeStraightBy forget bound offset' g (u + 1))) →
      R (if _h : u < bound then encodeStraightBy forget bound offset g (u + 1)
          else beyondBy forget bound offset g (u + 1))
        (if _h : u < bound then encodeStraightBy forget bound offset' g (u + 1)
          else beyondBy forget bound offset' g (u + 1)) := fun g u hu =>
    ite_related hu fun _ => ite_related (fun _ => h.falsity) fun _ => h.falsity
  -- operators that unfold into themselves one step later take an inner induction on the time left
  induction f generalizing t with
  | atom p =>
    rw [encodeStraightBy, encodeStraightBy]
    exact h.position _ _ (hatom p t ht)
  | unary op f ih =>
    revert ht
    refine induction_later bound (fun t hself ht => ?_) t
    rw [encodeStraightBy.eq_def, encodeStraightBy.eq_def forget bound offset']
    refine h.position _ _ fun hle => ?_
    cases op with
    | not => exact h.not (ih t ht)
    | next => exact ih (t + 1) (hnext t ht hle)
    | globally => exact h.falsity
    | eventually =>
      exact h.pair Graph.or_mixes (ih t ht) (hlater _ _ fun hlt => hself hlt (hnext t ht hle))
    | previous | once | historically => exact h.fail _
  | binary op f g ihf ihg =>
    revert ht
    refine induction_later bound (fun t hself ht => ?_) t
    rw [encodeStraightBy.eq_def, encodeStraightBy.eq_def forget bound offset']
    refine h.position _ _ fun hle => ?_
    have hself' := fun hlt => hself hlt (hnext t ht hle)
    have hf := ihf t ht
    have hg := ihg t ht
    cases op with
    | untl => exact h.triple Graph.or_mixes Graph.and_mixes hg hf (hlater _ _ hself')
    | releases => exact h.triple Graph.and_mixes Graph.or_mixes hg hf (hlater _ _ hself')
    | and => exact h.both Graph.and_mixes hf hg
    | or => exact h.both Graph.or_mixes hf hg
    | xor => exact h.both Graph.xor_mixes hf hg
    | implies => exact h.both Graph.implies_mixes hf hg
    | iff => exact h.both Graph.iff_mixes hf hg
    | since | reserved => exact h.fail _

end

/-- Times among which the recursion stays on a path that loops. -/
structure Visits (bound : Int64) (loop : Loop) (T : Int64 → Prop) : Prop where
  successor : ∀ t, T t → T (loop.successor bound t)
  last : ∀ t, T t → T (bound - 1)
  times : ∀ t, T t → ∀ u ∈ times (min t loop.word) bound, T u
  before : ∀ t, T t → ∀ u ∈ Encoder.times (min t loop.word) (bound - 1), T u

/-- On a path that loops the recursion goes back and forth between the times of the path. -/
theorem Compatible.looping {R : EncodeM Encoded → EncodeM Encoded → Prop} (h : Compatible R)
    {bound : Int64} (offset offset' : Int64) {loop : Loop} {T : Int64 → Prop}
    (hT : Visits bound loop T)
    (hatom : ∀ p t, T t → t ≤ bound → R (proposition p (t + offset)) (proposition p (t + offset')))
    (f : Formula) (t : Int64) (ht : T t) :
    R (encodeLoopingBy forget bound loop offset f t)
      (encodeLoopingBy forget bound loop offset' f t) := by
  -- the times that the recursion goes to stay among those of the path
  induction f generalizing t with
  | atom p =>
    rw [encodeLoopingBy, encodeLoopingBy]
    exact ite_related (fun _ => h.falsity) fun hle =>
      hatom p t ht (Int64.not_lt.1 fun hlt => hle (.inr hlt))
  | unary op f ih =>
    rw [encodeLoopingBy.eq_def, encodeLoopingBy.eq_def forget bound loop offset']
    refine ite_related (fun _ => h.falsity) fun _ => ?_
    cases op with
    | not => exact h.not (ih t ht)
    | next => exact ih _ (hT.successor t ht)
    | globally => exact h.joinTimes Graph.and_mixes _ true fun u hu => ih u (hT.times t ht u hu)
    | eventually => exact h.joinTimes Graph.or_mixes _ false fun u hu => ih u (hT.times t ht u hu)
    | previous | once | historically => exact h.fail _
  | binary op f g ihf ihg =>
    rw [encodeLoopingBy.eq_def, encodeLoopingBy.eq_def forget bound loop offset']
    refine ite_related (fun _ => h.falsity) fun _ => ?_
    have hf := ihf t ht
    have hg := ihg t ht
    cases op with
    | untl =>
      have hu := fun u hu => hT.times t ht u (List.mem_reverse.1 hu)
      exact h.unfoldTimes Graph.or_mixes Graph.and_mixes _ false (fun u hm => ihg u (hu u hm))
        fun u hm => ihf u (hu u hm)
    | releases =>
      have hu := fun u hu => hT.before t ht u (List.mem_reverse.1 hu)
      exact h.unfoldOnto Graph.and_mixes Graph.or_mixes _ (ihg _ (hT.last t ht))
        (fun u hm => ihg u (hu u hm)) fun u hm => ihf u (hu u hm)
    | and => exact h.both Graph.and_mixes hf hg
    | or => exact h.both Graph.or_mixes hf hg
    | xor => exact h.both Graph.xor_mixes hf hg
    | implies => exact h.both Graph.implies_mixes hf hg
    | iff => exact h.both Graph.iff_mixes hf hg
    | since | reserved => exact h.fail _

end Encoder

end Lasso
