import Lasso.Proofs.Bounded.Blame
import Lasso.Proofs.Machine.Forms

/-! # How far an encoding looks

Everything that is encoded for paths of a length is built over variables at the steps of the path.
The recursion never goes to a time outside of it, and it looks at the next step only where there is
one.
-/

namespace Lasso

set_option autoImplicit false

/-- Without a loop the encoding of a formula looks at most so many steps ahead.  What is unfolded is
encoded at the last step too, so that nothing in it may look ahead of that. -/
def Formula.endsWithin : Formula → Nat → Bool
  | atom _, _ => true
  | unary .next _, 0 => false
  | unary .next f, n + 1 => f.endsWithin n
  | unary .globally _, _ => true
  | unary .eventually f, _ => f.endsWithin 0
  | unary _ f, n => f.endsWithin n
  | binary op f g, n =>
    let left := if op.isUnfolded then 0 else n
    f.endsWithin left && g.endsWithin left

namespace Encoder

open Encoding

/-- What is encoded from `s` on adds nodes and timed variables only, and its result is as it should
be. -/
structure Yields {α : Type} (P : α → Encoding → Prop) (x : EncodeM α) (s : Encoder) : Prop where
  wf : s.encoding.WellFormed
  later : Later s.encoding (x s).2.encoding
  there : P (x s).1 (x s).2.encoding

/-- The expression of a result, which may be a placeholder, is built over certain variables. -/
abbrev Rested (Q : Origin → Prop) (r : Encoded) (e : Encoding) : Prop := e.Rests Q r.expr

section

variable {α β : Type} {P : α → Encoding → Prop} {P' : β → Encoding → Prop} {Q : Origin → Prop}
  {s : Encoder}

theorem Yields.pure (wf : s.encoding.WellFormed) {a : α} (h : P a s.encoding) :
    Yields P (Pure.pure a) s :=
  ⟨wf, .refl wf, h⟩

theorem Yields.bind {x : EncodeM α} {k : α → EncodeM β} (hx : Yields P x s)
    (hk : Yields P' (k (x s).1) (x s).2) : Yields P' (x >>= k) s :=
  ⟨hx.wf, hx.later.trans hk.later, hk.there⟩

theorem Yields.kept {x : EncodeM α} (hx : Yields P x s) {l : Lit} (hl : s.encoding.Rests Q l) :
    (x s).2.encoding.Rests Q l :=
  hl.of_le hx.wf hx.later.grows

theorem Yields.bind_unless {x : EncodeM Encoded} {k : Encoded → EncodeM Encoded}
    (hx : Yields (Rested Q) x s)
    (hk : ¬ (x s).1.failed = true → Yields (Rested Q) (k (x s).1) (x s).2) :
    Yields (Rested Q) (x >>= fun a => if a.failed then return a else k a) s := by
  refine hx.bind ?_
  by_cases hfailed : (x s).1.failed = true
  · rw [if_pos hfailed]
    exact .pure hx.later.wf hx.there
  · rw [if_neg hfailed]
    exact hk hfailed

theorem onEncoding_yields {c : StateM Encoding Lit} (wf : s.encoding.WellFormed)
    (hc : Remakes c s.encoding) (hrests : (c s.encoding).2.Rests Q (c s.encoding).1) :
    Yields (fun l e => e.Rests Q l) (onEncoding c) s :=
  ⟨wf, ⟨hc.wf, hc.grows, hc.vars⟩, hrests⟩

theorem made_yields {c : StateM Encoding Lit} (wf : s.encoding.WellFormed)
    (hc : Remakes c s.encoding) (hrests : (c s.encoding).2.Rests Q (c s.encoding).1) :
    Yields (Rested Q) (do return ⟨← onEncoding c, none⟩) s :=
  (onEncoding_yields wf hc hrests).bind (.pure hc.wf hrests)

theorem onGraph_yields {join : Lit → Lit → StateM Graph Lit} (hjoin : Graph.Mixes join)
    (wf : s.encoding.WellFormed) {a b : Lit} (ha : s.encoding.Rests Q a)
    (hb : s.encoding.Rests Q b) :
    Yields (fun l e => e.Rests Q l) (onGraph (join a b)) s :=
  onEncoding_yields wf (join_remakes wf hjoin.toRepeatable (ha.mem wf) (hb.mem wf))
    (join_rests wf hjoin ha hb)

theorem joined_yields {join : Lit → Lit → StateM Graph Lit} (hjoin : Graph.Mixes join)
    (wf : s.encoding.WellFormed) {a b : Lit} (ha : s.encoding.Rests Q a)
    (hb : s.encoding.Rests Q b) (error? : Option EncodeError) :
    Yields (Rested Q) (do return ⟨← onGraph (join a b), error?⟩) s := by
  have h := onGraph_yields hjoin wf ha hb
  exact h.bind (.pure h.later.wf h.there)

end

/-- On every encoder for the same variables, what is encoded is built over certain variables. -/
def Confined (e : Encoding) (Q : Origin → Prop) (x : EncodeM Encoded) : Prop :=
  ∀ s : Encoder, Later e s.encoding → Yields (Rested Q) x s

section

variable {e : Encoding} {Q : Origin → Prop}

theorem constant_confined (b : Bool) (error? : Option EncodeError) :
    Confined e Q (return ⟨Graph.ofBool b, error?⟩) :=
  fun _ hs => .pure hs.wf .constant

theorem ite_confined {c : Prop} [Decidable c] {x y : EncodeM Encoded} (hx : c → Confined e Q x)
    (hy : ¬ c → Confined e Q y) : Confined e Q (if c then x else y) := by
  by_cases hc : c
  · rw [if_pos hc]
    exact hx hc
  · rw [if_neg hc]
    exact hy hc

theorem joinTimes_yields {join : Lit → Lit → StateM Graph Lit} (hjoin : Graph.Mixes join)
    {x : Int64 → EncodeM Encoded} (ts : List Int64) (hx : ∀ t ∈ ts, Confined e Q (x t))
    {s : Encoder} (hs : Later e s.encoding) {result : Lit} (hresult : s.encoding.Rests Q result) :
    Yields (Rested Q) (joinTimes join x ts result) s := by
  induction ts generalizing s result with
  | nil => exact .pure hs.wf hresult
  | cons t ts ih =>
    have hnow := hx t List.mem_cons_self s hs
    have hjoined := onGraph_yields hjoin hnow.later.wf (hnow.kept hresult) hnow.there
    refine hnow.bind_unless fun _ => hjoined.bind ?_
    exact ih (fun u hu => hx u (List.mem_cons_of_mem t hu))
      (hs.trans (hnow.later.trans hjoined.later)) hjoined.there

theorem unfoldTimes_yields {outer inner : Lit → Lit → StateM Graph Lit}
    (houter : Graph.Mixes outer) (hinner : Graph.Mixes inner) {x y : Int64 → EncodeM Encoded}
    (ts : List Int64) (hx : ∀ t ∈ ts, Confined e Q (x t)) (hy : ∀ t ∈ ts, Confined e Q (y t))
    {s : Encoder} (hs : Later e s.encoding) {result : Lit} (hresult : s.encoding.Rests Q result) :
    Yields (Rested Q) (unfoldTimes outer inner x y ts result) s := by
  induction ts generalizing s result with
  | nil => exact .pure hs.wf hresult
  | cons t ts ih =>
    have hq := hx t List.mem_cons_self s hs
    have hp := hy t List.mem_cons_self _ (hs.trans hq.later)
    refine hq.bind (hp.bind ?_)
    cases (x t s).1.error?.or (y t (x t s).2).1.error? with
    | some err => exact .pure hp.later.wf .constant
    | none =>
      have hlater := onGraph_yields hinner hp.later.wf hp.there (hp.kept (hq.kept hresult))
      have hnow := onGraph_yields houter hlater.later.wf (hlater.kept (hp.kept hq.there))
        hlater.there
      refine hlater.bind (hnow.bind ?_)
      exact ih (fun u hu => hx u (List.mem_cons_of_mem t hu))
        (fun u hu => hy u (List.mem_cons_of_mem t hu))
        (hs.trans ((hq.later.trans hp.later).trans (hlater.later.trans hnow.later))) hnow.there

theorem not_confined {x : EncodeM Encoded} (hx : Confined e Q x) :
    Confined e Q (do return (← x).not) := by
  intro s hs
  have h := hx s hs
  exact h.bind (.pure h.later.wf h.there)

theorem both_confined {join : Lit → Lit → StateM Graph Lit} (hjoin : Graph.Mixes join)
    {x y : EncodeM Encoded} (hx : Confined e Q x) (hy : Confined e Q y) :
    Confined e Q (both join x y) := by
  intro s hs
  have h := hx s hs
  have h' := hy _ (hs.trans h.later)
  exact h.bind_unless fun _ => h'.bind_unless fun _ =>
    joined_yields hjoin h'.later.wf (h'.kept h.there) h'.there none

theorem pair_confined {join : Lit → Lit → StateM Graph Lit} (hjoin : Graph.Mixes join)
    {x y : EncodeM Encoded} (hx : Confined e Q x) (hy : Confined e Q y) :
    Confined e Q (do
      let now ← x
      let later ← y
      return ⟨← onGraph (join now.expr later.expr), now.error?.or later.error?⟩) := by
  intro s hs
  have h := hx s hs
  have h' := hy _ (hs.trans h.later)
  exact h.bind (h'.bind (joined_yields hjoin h'.later.wf (h'.kept h.there) h'.there _))

theorem triple_confined {outer inner : Lit → Lit → StateM Graph Lit} (houter : Graph.Mixes outer)
    (hinner : Graph.Mixes inner) {x y z : EncodeM Encoded} (hx : Confined e Q x)
    (hy : Confined e Q y) (hz : Confined e Q z) :
    Confined e Q (do
      let goal ← x
      let now ← y
      let later ← z
      let wait ← onGraph (inner now.expr later.expr)
      return ⟨← onGraph (outer goal.expr wait), (goal.error?.or now.error?).or later.error?⟩) := by
  intro s hs
  have h := hx s hs
  have h' := hy _ (hs.trans h.later)
  have h'' := hz _ (hs.trans (h.later.trans h'.later))
  have hwait := onGraph_yields hinner h''.later.wf (h''.kept h'.there) h''.there
  refine h.bind (h'.bind (h''.bind (hwait.bind ?_)))
  exact joined_yields houter hwait.later.wf (hwait.kept (h''.kept (h'.kept h.there)))
    hwait.there _

theorem position_confined {f : Formula} {time bound offset : Int64} {x : EncodeM Encoded}
    (hx : Confined e Q x) : Confined e Q (positionBy forget f time bound offset x) :=
  ite_confined (fun _ => constant_confined false none) fun _ => hx

theorem confined_compatible : Compatible fun x _ => Confined e Q x where
  falsity := constant_confined false none
  fail err := constant_confined false (some err)
  not := not_confined
  both hjoin _ _ _ _ := both_confined hjoin
  pair hjoin _ _ _ _ := pair_confined hjoin
  triple houter hinner _ _ _ _ _ _ := triple_confined houter hinner
  joinTimes hjoin _ _ ts _ hx _ hs := joinTimes_yields hjoin ts hx hs .constant
  unfoldTimes houter hinner _ _ _ _ ts _ hx hx' _ hs :=
    unfoldTimes_yields houter hinner ts hx hx' hs .constant
  unfoldOnto houter hinner _ _ _ _ _ _ ts hlast hx hx' s hs := by
    have h := hlast s hs
    exact h.bind_unless fun _ =>
      unfoldTimes_yields houter hinner ts hx hx' (hs.trans h.later) h.there

variable {n : Nat} {T : UInt64 → Prop} (hn : e.vars.size = n)

include hn

theorem proposition_confined (p : Expr) {t : Int64} (ht : T t.toUInt64) :
    Confined e (Origin.Within n T) (proposition p t) := by
  intro s hs
  have hcondition := (condition_attempts hs.wf false p).1
  have hform := condition_rests hs.wf false p
  have hvars := vars_condition (e := s.encoding) p
  have hlater : Later s.encoding ((condition false p).run s.encoding).2 :=
    ⟨hcondition.wf, hcondition.grows, hvars⟩
  have hrun := proposition_eq p t s
  dsimp only at hrun
  cases hresult : ((condition false p).run s.encoding).1 with
  | error err =>
    rw [hresult] at hrun
    exact ⟨hs.wf, hrun ▸ hlater, hrun ▸ .constant⟩
  | ok l =>
    rw [hresult] at hrun
    have hl := hform l hresult
    have hmade := instantiate_remakes hcondition.wf (hl.mem hcondition.wf) t.toUInt64
    have hn' := (congrArg Array.size (hvars.trans hs.vars)).trans hn
    have hrests := instantiate_rests hcondition.wf hn' (hl.mono fun _ ho => ho.due ht)
    exact ⟨hs.wf, hrun ▸ hlater.trans ⟨hmade.wf, hmade.grows, hmade.vars⟩, hrun ▸ hrests⟩

omit hn in
theorem sameAt_rests {source target : UInt64} (hsource : T source) (htarget : T target)
    (vs : List Variable) {e : Encoding} (wf : e.WellFormed) (hvs : ∀ x ∈ vs, x.index < n)
    {result : Lit} (hresult : e.Rests (Origin.Within n T) result) :
    (sameAt source target vs result e).2.Rests (Origin.Within n T)
      (sameAt source target vs result e).1 := by
  induction vs generalizing e result with
  | nil => exact hresult
  | cons x vs ih =>
    have hx := hvs x List.mem_cons_self
    have hbefore := variableAt_remakes wf x.index target
    have hafter := variableAt_remakes hbefore.wf x.index source
    have hb := (variableAt_rests wf hx htarget).of_le hbefore.wf hafter.grows
    have ha := variableAt_rests hbefore.wf hx hsource
    have hsame := join_remakes hafter.wf Graph.iff_repeatable (hafter.mem hbefore.there)
      hafter.there
    have hs := join_rests hafter.wf Graph.iff_mixes hb ha
    have hresult' := hresult.of_le wf (le_trans hbefore.grows (le_trans hafter.grows hsame.grows))
    have hboth := and_remakes hsame.wf (hresult'.mem hsame.wf) hsame.there
    rw [sameAt_cons]
    exact ih hboth.wf (fun y hy => hvs y (List.mem_cons_of_mem x hy))
      (join_rests hsame.wf Graph.and_mixes hresult' hs)

theorem loopCondition_confined {source target : Int64} (hsource : T source.toUInt64)
    (htarget : T target.toUInt64) :
    Confined e (Origin.Within n T) (loopCondition source target) := by
  refine ite_confined (fun _ => constant_confined false _) fun _ s hs => ?_
  have hvs : ∀ x ∈ s.encoding.stateVariables, x.index < n := by
    intro x hx
    obtain ⟨i, hi, hxi⟩ := Array.getElem_of_mem
      (Array.mem_toList_iff.1 (List.mem_of_mem_filter hx))
    rw [hs.wf.index i x (Array.getElem?_eq_some_iff.2 ⟨hi, hxi⟩), ← hn, ← hs.vars]
    exact hi
  have hmade := sameAt_remakes source.toUInt64 target.toUInt64 s.encoding.stateVariables hs.wf
    hs.wf.graph.truth_mem
  have h := made_yields hs.wf hmade
    (sameAt_rests hsource htarget _ hs.wf hvs (rests_truth s.encoding _))
  exact ⟨h.wf, h.later, h.there⟩

omit hn in
theorem fairWithin_rests {first last : UInt64} (hT : ∀ t, first ≤ t → t ≤ last → T t)
    (ls : List Lit) {e : Encoding} (wf : e.WellFormed) (hn : e.vars.size = n)
    (hls : ∀ l ∈ ls, e.Rests (Origin.IsForm false) l) {result : Lit}
    (hresult : e.Rests (Origin.Within n T) result) :
    (fairWithin first last ls result e).2.Rests (Origin.Within n T)
      (fairWithin first last ls result e).1 := by
  induction ls generalizing e result with
  | nil => exact hresult
  | cons l ls ih =>
    have hl := hls l List.mem_cons_self
    have hholds := sometime_remakes wf (hl.mem wf) first last
    have hrests := sometime_rests wf hn hl hT
    have hresult' := hresult.of_le wf hholds.grows
    have hboth := and_remakes hholds.wf (hresult'.mem hholds.wf) hholds.there
    have hle := le_trans hholds.grows hboth.grows
    refine ih hboth.wf ((congrArg Array.size (hboth.vars.trans hholds.vars)).trans hn)
      (fun k hk => ?_) (join_rests hholds.wf Graph.and_mixes hresult' hrests)
    exact (hls k (List.mem_cons_of_mem l hk)).of_le wf hle

theorem fairnessConstraint_confined (wf : e.WellFormed) {m : Machine} (hm : m.Formed e)
    (bound : Int64) (l : Loop)
    (hT : ∀ t, l.word.toUInt64 ≤ t → t ≤ (bound - 1).toUInt64 → T t) :
    Confined e (Origin.Within n T) (fairnessConstraint m bound l) := by
  refine ite_confined (fun _ => constant_confined false none) fun _ =>
    ite_confined (fun _ => constant_confined true none) fun _ =>
      ite_confined (fun _ => constant_confined false _) fun _ s hs => ?_
  have hls : ∀ k ∈ m.fairness.toList, s.encoding.Rests (Origin.IsForm false) k := fun k hk =>
    (hm.fairness k (Array.mem_toList_iff.1 hk)).of_le wf hs.grows
  have hmade := fairWithin_remakes l.word.toUInt64 (bound - 1).toUInt64 m.fairness.toList hs.wf
    (fun k hk => (hls k hk).mem hs.wf) hs.wf.graph.truth_mem
  exact made_yields hs.wf hmade (fairWithin_rests hT _ hs.wf
    ((congrArg Array.size hs.vars).trans hn) hls (rests_truth s.encoding _))

end

section

variable {e : Encoding} {n : Nat} (hn : e.vars.size = n) {T : UInt64 → Prop} {k : Nat}
  (hk : k < 2 ^ 63) (hT : ∀ u : UInt64, u.toNat ≤ k → T u)

theorem toNat_toUInt64_ofNat {i : Nat} (hi : i < 2 ^ 63) : (Int64.ofNat i).toUInt64.toNat = i :=
  UInt64.toNat_ofNat_of_lt' (by change i < 2 ^ 64; omega)

include hk hT

theorem within_ofNat {i : Nat} (hi : i ≤ k) : T (Int64.ofNat i).toUInt64 :=
  hT _ (by rwa [toNat_toUInt64_ofNat (by omega)])

include hn

omit hn hT in
/-- What is unfolded into itself one step later, up to the last step. -/
theorem unfolds_confined {Q : Origin → Prop} {g : Formula}
    (hstep : ∀ i ≤ k, Confined e Q (if _h : Int64.ofNat i < .ofNat k then
        encodeStraightBy forget (.ofNat k) 0 g (.ofNat i + 1)
      else beyondBy forget (.ofNat k) 0 g (.ofNat i + 1)) →
        Confined e Q (encodeStraightBy forget (.ofNat k) 0 g (.ofNat i))) {i : Nat} (hi : i ≤ k) :
    Confined e Q (encodeStraightBy forget (.ofNat k) 0 g (.ofNat i)) := by
  induction hd : k - i generalizing i with
  | zero =>
    obtain rfl : i = k := by omega
    refine hstep i hi (ite_confined (fun hlt => (Int64.lt_irrefl hlt).elim) fun _ => ?_)
    exact ite_confined (fun _ => constant_confined false none) fun _ => constant_confined false none
  | succ d ih =>
    have hlt : Int64.ofNat i < .ofNat k :=
      (Int64.ofNat_lt_iff_lt (by omega) hk).2 (by omega)
    refine hstep i hi (ite_confined (fun _ => ?_) fun hle => absurd hlt hle)
    rw [show Int64.ofNat i + 1 = .ofNat (i + 1) from (Int64.ofNat_add i 1).symm]
    exact ih (by omega) (by omega)

theorem encodeStraight_confined (f : Formula) {i d : Nat} (hid : i + d ≤ k) (hf : f.endsWithin d) :
    Confined e (Origin.Within n T) (encodeStraightBy forget (.ofNat k) 0 f (.ofNat i)) := by
  -- the steps that are left are those that next states may take
  induction f generalizing i d with
  | atom p =>
    rw [encodeStraightBy]
    refine position_confined ?_
    rw [Int64.add_zero]
    exact proposition_confined hn p (within_ofNat hk hT (by omega))
  | unary op f ih =>
    cases op with
    | eventually =>
      refine unfolds_confined hk (fun j hj hlater => ?_) (show i ≤ k by omega)
      rw [encodeStraightBy.eq_def]
      exact position_confined (pair_confined Graph.or_mixes (ih hj hf) hlater)
    | not =>
      rw [encodeStraightBy.eq_def]
      exact position_confined (not_confined (ih hid hf))
    | next =>
      rw [encodeStraightBy.eq_def]
      refine position_confined ?_
      cases d with
      | zero => cases hf
      | succ d =>
        dsimp only
        rw [show Int64.ofNat i + 1 = .ofNat (i + 1) from (Int64.ofNat_add i 1).symm]
        exact ih (by omega) hf
    | globally =>
      rw [encodeStraightBy.eq_def]
      exact position_confined (constant_confined false none)
    | previous | once | historically =>
      rw [encodeStraightBy.eq_def]
      exact position_confined (constant_confined false _)
  | binary op f g ihf ihg =>
    simp only [Formula.endsWithin, Bool.and_eq_true] at hf
    cases op with
    | untl =>
      refine unfolds_confined hk (fun j hj hlater => ?_) (show i ≤ k by omega)
      rw [encodeStraightBy.eq_def]
      exact position_confined
        (triple_confined Graph.or_mixes Graph.and_mixes (ihg hj hf.2) (ihf hj hf.1) hlater)
    | releases =>
      refine unfolds_confined hk (fun j hj hlater => ?_) (show i ≤ k by omega)
      rw [encodeStraightBy.eq_def]
      exact position_confined
        (triple_confined Graph.and_mixes Graph.or_mixes (ihg hj hf.2) (ihf hj hf.1) hlater)
    | and =>
      rw [encodeStraightBy.eq_def]
      exact position_confined (both_confined Graph.and_mixes (ihf hid hf.1) (ihg hid hf.2))
    | or =>
      rw [encodeStraightBy.eq_def]
      exact position_confined (both_confined Graph.or_mixes (ihf hid hf.1) (ihg hid hf.2))
    | xor =>
      rw [encodeStraightBy.eq_def]
      exact position_confined (both_confined Graph.xor_mixes (ihf hid hf.1) (ihg hid hf.2))
    | implies =>
      rw [encodeStraightBy.eq_def]
      exact position_confined (both_confined Graph.implies_mixes (ihf hid hf.1) (ihg hid hf.2))
    | iff =>
      rw [encodeStraightBy.eq_def]
      exact position_confined (both_confined Graph.iff_mixes (ihf hid hf.1) (ihg hid hf.2))
    | since | reserved =>
      rw [encodeStraightBy.eq_def]
      exact position_confined (constant_confined false _)

/-- Without a loop the recursion goes on to the step after the last.  At the largest bound there is
no such step, so that the recursion ends only if it looks no further than to the last. -/
theorem straight_confined (f : Formula)
    (hnext : k + 1 < 2 ^ 63 ∨ f.endsWithin k ∨ ∀ u, T u) :
    Confined e (Origin.Within n T) (straightBy forget f 0 (.ofNat k) 0) := by
  refine ite_confined (fun _ => constant_confined false _) fun _ =>
    ite_confined (fun _ => constant_confined false _) fun _ =>
      ite_confined (fun _ => constant_confined false _) fun _ => ?_
  rcases hnext with hnext | hends | hall
  · refine confined_compatible.straight 0 0 (T := fun t => ∃ i ≤ k + 1, t = .ofNat i)
      ?_ ?_ f 0 ⟨0, Nat.zero_le _, rfl⟩
    · rintro t ⟨i, hi, rfl⟩ hle
      have hik := (Int64.ofNat_le_iff_le (by omega) hk).1 hle
      exact ⟨i + 1, by omega, (Int64.ofNat_add i 1).symm⟩
    · rintro p t ⟨i, hi, rfl⟩ hle
      have hik := (Int64.ofNat_le_iff_le (by omega) hk).1 hle
      rw [Int64.add_zero]
      exact proposition_confined hn p (within_ofNat hk hT hik)
  · exact encodeStraight_confined hn hk hT f (Nat.le_of_eq (Nat.zero_add k)) hends
  · exact confined_compatible.straight 0 0 (T := fun _ => True)
      (fun _ _ _ => trivial) (fun p t _ _ => proposition_confined hn p (hall _)) f 0 trivial

omit hn hT in
theorem visits_below {j : Nat} (hj : j < k) (hloop : ¬ (Loop.mk (.ofNat j)).isNone) :
    Visits (.ofNat k) ⟨.ofNat j⟩ fun t => ∃ i < k, t = .ofNat i := by
  have hmem : ∀ {i b : Nat}, i < k → b ≤ k →
      ∀ t ∈ times (min (.ofNat i) (.ofNat j)) (.ofNat b), ∃ u < k, t = .ofNat u := by
    intro i b hi hb t ht
    rw [times_eq hj hk hi hb, List.mem_map] at ht
    obtain ⟨u, hu, rfl⟩ := ht
    have := List.mem_range'_1.1 hu
    exact ⟨u, by omega, rfl⟩
  constructor
  · rintro t ⟨i, hi, rfl⟩
    refine ⟨_, ?_, successor_eq hk hloop hi⟩
    split <;> omega
  · rintro t ⟨i, hi, rfl⟩
    exact ⟨k - 1, by omega, ofNat_sub_one (by omega)⟩
  · rintro t ⟨i, hi, rfl⟩
    exact hmem hi (le_refl k)
  · rintro t ⟨i, hi, rfl⟩
    rw [ofNat_sub_one (by omega)]
    exact hmem hi (Nat.sub_le k 1)

theorem looping_confined {j : Nat} (hj : j < k) (f : Formula) :
    Confined e (Origin.Within n T) (loopingBy forget f 0 (.ofNat k) ⟨.ofNat j⟩ 0) := by
  refine ite_confined (fun _ => constant_confined false _) fun _ =>
    ite_confined (fun _ => constant_confined false _) fun _ =>
      ite_confined (fun _ => constant_confined false _) fun _ =>
        ite_confined (fun _ => constant_confined false _) fun hargs => ?_
  have hloop : ¬ (Loop.mk (.ofNat j)).isNone := by
    intro hnone
    have hsingle : (Loop.mk (.ofNat j)).isSingle = false := by
      rw [Loop.isSingle, decide_eq_false (not_not.2 (of_decide_eq_true hnone)), Bool.false_and]
    rw [hsingle] at hargs
    exact hargs rfl
  refine confined_compatible.looping 0 0 (visits_below hk hj hloop) ?_ f 0 ⟨0, by omega, rfl⟩
  rintro p t ⟨i, hi, rfl⟩ _
  rw [Int64.add_zero]
  exact proposition_confined hn p (within_ofNat hk hT (Nat.le_of_lt hi))

variable (wf : e.WellFormed) {m : Machine} (hm : m.Formed e) (f : Formula) (fair : Bool)

theorem onStraight_confined
    (hnext : (fair && !m.fairness.isEmpty) = false → k + 1 < 2 ^ 63 ∨ f.endsWithin k ∨ ∀ u, T u) :
    Confined e (Origin.Within n T) (onStraightBy forget m f (.ofNat k) 0 fair) :=
  ite_confined (fun _ => constant_confined false none) fun hfair =>
    straight_confined hn hk hT f (hnext (Bool.eq_false_iff.2 hfair))

include wf hm

/-- A loop is fair before its last step, which is its first once more. -/
theorem onLoop_confined {j : Nat} (hj : j < k) :
    Confined e (Origin.Within n T) (onLoopBy forget m f (.ofNat k) ⟨.ofNat j⟩ 0 fair) := by
  intro s hs
  unfold onLoopBy
  dsimp only
  rw [Int64.zero_add, Int64.zero_add]
  have hinterval : ∀ t : UInt64, (Int64.ofNat j).toUInt64 ≤ t →
      t ≤ (Int64.ofNat k - 1).toUInt64 → T t := by
    intro t _ ht
    rw [ofNat_sub_one (by omega), UInt64.le_iff_toNat_le, toNat_toUInt64_ofNat (by omega)] at ht
    exact hT t (by omega)
  have hreturns := loopCondition_confined hn (within_ofNat hk hT (le_refl k))
    (within_ofNat hk hT (Nat.le_of_lt hj)) s hs
  have hfairly := ite_confined (c := fair = true)
    (fun _ => fairnessConstraint_confined hn wf hm (.ofNat k) ⟨.ofNat j⟩ hinterval)
    (fun _ => constant_confined true none) _ (hs.trans hreturns.later)
  have hholds := looping_confined hn hk hT hj f _
    (hs.trans (hreturns.later.trans hfairly.later))
  refine hreturns.bind_unless fun _ => hfairly.bind_unless fun _ => hholds.bind_unless fun _ => ?_
  have hinner := onGraph_yields Graph.and_mixes hholds.later.wf (hholds.kept hfairly.there)
    hholds.there
  refine hinner.bind (joined_yields Graph.and_mixes hinner.later.wf ?_ hinner.there none)
  exact hinner.kept (hholds.kept (hfairly.kept hreturns.there))

theorem onAll_confined
    (hnext : (fair && !m.fairness.isEmpty) = false → k + 1 < 2 ^ 63 ∨ f.endsWithin k ∨ ∀ u, T u) :
    Confined e (Origin.Within n T) (onAllBy forget m f (.ofNat k) 0 fair) := by
  intro s hs
  have hloop : ∀ t ∈ times 0 (.ofNat k),
      Confined e (Origin.Within n T) (onLoopBy forget m f (.ofNat k) ⟨t⟩ 0 fair) := by
    intro t ht
    rw [times_zero hk, List.mem_map] at ht
    obtain ⟨j, hj, rfl⟩ := ht
    have := List.mem_range'_1.1 hj
    exact onLoop_confined hn hk hT wf hm f fair (by omega)
  have hwithout := onStraight_confined (m := m) hn hk hT f fair hnext s hs
  have hloops := joinTimes_yields Graph.or_mixes _ hloop (hs.trans hwithout.later)
    (rests_falsity _ _)
  refine hwithout.bind_unless fun _ => hloops.bind_unless fun _ => ?_
  exact joined_yields Graph.or_mixes hloops.later.wf (hloops.kept hwithout.there) hloops.there none

end

theorem onTable_confined {e : Encoding} {Q : Origin → Prop} {x : StateM Table Formula}
    {f : Formula} (hx : ∀ t, (x t).1 = f) {k : Formula → EncodeM Encoded}
    (hk : Confined e Q (k f)) : Confined e Q (onTable x >>= k) := by
  intro s hs
  have hrun : (onTable x >>= k) s = k f (onTable x s).2 := by
    rw [bind_apply, onTable_eq, hx]
  obtain ⟨wf, hlater, hthere⟩ := hk (onTable x s).2 hs
  exact ⟨wf, hrun ▸ hlater, hrun ▸ hthere⟩

/-- Nothing in the violation of a formula looks beyond the largest time.  A path of the largest
length ends there, and unless it loops or has to be fair there may be next states above one another
that lead further. -/
def Ends (m : Machine) (f : Formula) (bound : Int64) (l : Loop) : Prop :=
  bound < Int64.maxValue ∨ l.isSingle ∨ m.fairness.isEmpty = false ∨
    f.negation.endsWithin bound.toNatClampNeg

/-- The times that a problem may be about: those of a path of the length. -/
def Reached (m : Machine) (f : Formula) (bound : Int64) (l : Loop) (u : UInt64) : Prop :=
  Ends m f bound l → (u.toNat : Int) ≤ bound.toInt

section

variable {e : Encoding} {n : Nat} (hn : e.vars.size = n) (wf : e.WellFormed) {m : Machine}
  (hm : m.Formed e) (f : Formula) (bound : Int64) (l : Loop)

include hn wf hm

theorem violation_confined :
    Confined e (Origin.Within n (Reached m f bound l)) (violationBy forget m f bound l) := by
  unfold violationBy
  cases hcheck : checkSemantics bound l 0 with
  | error err => exact constant_confined false _
  | ok _ =>
    obtain ⟨k, hk, rfl, hsingle⟩ := checkSemantics_cases hcheck
    have hT : ∀ u : UInt64, u.toNat ≤ k → Reached m f (.ofNat k) l u := by
      intro u hu _
      rw [Int64.toInt_ofNat_of_lt hk]
      exact_mod_cast hu
    refine onTable_confined (Table.negation_fst f) ?_
    by_cases hl : l.isSingle = true
    · obtain ⟨j, hj, habs⟩ := hsingle hl
      obtain ⟨hnone, hall⟩ := Loop.isSingle_iff.1 hl
      unfold onPathsBy
      rw [hnone, hall, habs]
      exact onLoop_confined hn hk hT wf hm _ true hj
    have hnext : (true && !m.fairness.isEmpty) = false →
        k + 1 < 2 ^ 63 ∨ f.negation.endsWithin k ∨ ∀ u, Reached m f (.ofNat k) l u := by
      intro hunfair
      by_cases hends : Ends m f (.ofNat k) l
      · rcases hends with hlt | hsingle | hfair | hends
        · have hne : Int64.ofNat k ≠ Int64.maxValue := fun hmax => Int64.lt_irrefl (hmax ▸ hlt)
          rw [ne_eq, ofNat_eq_maxValue_iff hk] at hne
          exact .inl (by omega)
        · exact absurd hsingle hl
        · rw [hfair] at hunfair
          cases hunfair
        · rw [Int64.toNatClampNeg_ofNat_of_lt hk] at hends
          exact .inr (.inl hends)
      · exact .inr (.inr fun u hu => absurd hu hends)
    refine ite_confined (fun _ => onAll_confined hn hk hT wf hm _ true hnext) fun hall =>
      ite_confined (fun _ => onStraight_confined hn hk hT _ true hnext) fun hnone => ?_
    exact absurd (Loop.isSingle_iff.2 ⟨by simpa using hnone, by simpa using hall⟩) hl

theorem problem_confined (hover : m.Over e) :
    Confined e (Origin.Within n (Reached m f bound l)) (problemBy forget m f bound l) := by
  intro s hs
  have hviolated := violation_confined hn wf hm f bound l s hs
  refine hviolated.bind_unless fun hok => ?_
  have hs' := hs.trans hviolated.later
  have hpath : ∀ t ≤ bound.toUInt64, Reached m f bound l t := by
    unfold violationBy at hok
    cases hcheck : checkSemantics bound l 0 with
    | error err =>
      rw [hcheck] at hok
      exact absurd rfl hok
    | ok _ =>
      obtain ⟨k, hk, rfl, -⟩ := checkSemantics_cases hcheck
      intro t ht _
      rw [UInt64.le_iff_toNat_le, toNat_toUInt64_ofNat hk] at ht
      rw [Int64.toInt_ofNat_of_lt hk]
      exact_mod_cast ht
  have hm' := hm.of_le wf hs'.grows
  have hover' := hover.of_le wf hs'.grows
  have hsteps := onEncoding_yields hs'.wf (m.path_remakes hs'.wf hover' bound.toUInt64)
    (m.path_rests hs'.wf hm' ((congrArg Array.size hs'.vars).trans hn) hover' hpath)
  refine hsteps.bind ?_
  exact joined_yields Graph.and_mixes hsteps.later.wf hsteps.there
    (hsteps.kept hviolated.there) none

end

end Encoder

end Lasso
