import Lasso.Proofs.Machine.Locality

/-! # Paths without repeated states

A path that repeats a state can be cut there, because what can follow is a matter of the state.  At
the start this takes a constraint on first states that is one of states, too.  So if a property is
kept at the end of all stretches without repeated states, there is no longest path to consider.
-/

namespace Lasso

set_option autoImplicit false

namespace Machine

open Encoding

variable {m : Machine} {e : Encoding} {prop : Lit}

/-- The property holds at the end of all paths of a length. -/
def HoldsAt (m : Machine) (e : Encoding) (prop : Lit) (n : Nat) : Prop :=
  ∀ w, m.IsPath e w n → e.holds prop (w n) (w n)

/-- The property is kept at the end of any `k + 1` steps that repeat no state. -/
def KeptAfter (m : Machine) (e : Encoding) (prop : Lit) (k : Nat) : Prop :=
  ∀ w, m.Steps e w 0 (k + 1) → (∀ j ≤ k, e.holds prop (w j) (w j)) →
    (∀ j ≤ k + 1, ∀ i < j, e.sameState (w i) (w j) = false) →
    e.holds prop (w (k + 1)) (w (k + 1))

theorem Over.holdsAt_iff {e' : Encoding} (wf : e.WellFormed) (hle : e ≤ e') (h : m.Over e)
    (hprop : e.Current prop) (n : Nat) : m.HoldsAt e' prop n ↔ m.HoldsAt e prop n := by
  simp only [HoldsAt, h.isPath_iff wf hle, hprop.untimed.holds_of_le wf hle]

/-- The word without what lies between two positions. -/
def cut (w : Nat → Letter) (a b : Nat) : Nat → Letter :=
  fun n => if n < a then w n else w (n + (b - a))

theorem IsPath.shorter {w : Nat → Letter} {n i : Nat} (h : m.IsPath e w n) (hi : i ≤ n) :
    m.IsPath e w i :=
  ⟨h.1, fun j hj => h.2.1 j (Nat.le_trans hj hi), fun j hj => h.2.2 j (Nat.lt_of_lt_of_le hj hi)⟩

theorem IsPath.steps {w : Nat → Letter} {n c d : Nat} (h : m.IsPath e w n) (hn : d + c ≤ n) :
    m.Steps e (fun j => w (d + j)) 0 c := by
  refine ⟨h.2.1 d (by omega), fun j hj => ?_⟩
  rw [Nat.zero_add]
  exact ⟨h.2.2 (d + j) (by omega), h.2.1 (d + j + 1) (by omega)⟩

theorem IsPath.cut (wf : e.WellFormed) {w : Nat → Letter} {n a b : Nat} (h : m.IsPath e w n)
    (hab : a < b) (hb : b ≤ n) (hsame : e.sameState (w a) (w b))
    (hinit : a = 0 → e.isStateExpr m.init) : m.IsPath e (cut w a b) (n - (b - a)) := by
  obtain ⟨hfirst, hallowed, hmoves⟩ := h
  refine ⟨?_, fun j hj => ?_, fun j hj => ?_⟩
  · unfold Machine.cut
    split
    · exact hfirst
    · obtain rfl : a = 0 := by omega
      rw [Initial, ← holds_congr_of_isStateExpr wf (hinit rfl)]
      · exact hfirst
      · rw [Nat.sub_zero, Nat.zero_add]
        exact hsame
  · unfold Machine.cut
    split
    · exact hallowed j (by omega)
    · exact hallowed _ (by omega)
  · unfold Machine.cut
    rcases Nat.lt_trichotomy (j + 1) a with hlt | heq | hgt
    · rw [if_pos (by omega), if_pos hlt]
      exact hmoves j (by omega)
    · -- the step into the repeated state leads to its later occurrence instead
      rw [if_pos (by omega), if_neg (by omega), heq, show a + (b - a) = b by omega]
      have hmove := hmoves j (by omega)
      rw [heq] at hmove
      exact (moves_congr wf (SameValues.refl e (w j)) hsame).1 hmove
    · rw [if_neg (by omega), if_neg (by omega), Nat.add_right_comm]
      exact hmoves _ (by omega)

/-- A property that holds on short paths and is kept holds on all paths, unless the first steps of
a path that is just too long repeat its first state. -/
theorem holdsAt_of_keptAfter (wf : e.WellFormed) {k : Nat} (hbase : ∀ n ≤ k, m.HoldsAt e prop n)
    (hkept : m.KeptAfter e prop k) (hnext : e.isStateExpr m.init ∨ m.HoldsAt e prop (k + 1))
    (n : Nat) : m.HoldsAt e prop n := by
  induction n using Nat.strongRecOn with
  | _ n ih =>
  by_cases hnk : n ≤ k
  · exact hbase n hnk
  intro w hw
  by_contra hfails
  obtain ⟨d, rfl⟩ : ∃ d, n = d + (k + 1) := ⟨n - (k + 1), by omega⟩
  -- the last steps repeat a state, for otherwise the property would be kept
  obtain ⟨i, j, hij, hj, hsame⟩ : ∃ i j, i < j ∧ j ≤ k + 1 ∧ e.sameState (w (d + i)) (w (d + j)) := by
    by_contra hno
    refine hfails (hkept _ (hw.steps (Nat.le_refl _)) (fun j hj => ?_) fun j hj i hij => ?_)
    · exact ih (d + j) (by omega) w (hw.shorter (by omega))
    · exact Bool.eq_false_iff.2 fun hsame => hno ⟨i, j, hij, hj, hsame⟩
  by_cases hstart : d + i = 0 ∧ ¬ e.isStateExpr m.init
  · obtain ⟨hzero, hinputs⟩ := hstart
    obtain rfl : d = 0 := by omega
    rw [Nat.zero_add] at hw hfails
    exact hfails ((hnext.resolve_left hinputs) w hw)
  · have hcut := hw.cut wf (Nat.add_lt_add_left hij d) (by omega) hsame fun hzero =>
      by_contra fun hinputs => hstart ⟨hzero, hinputs⟩
    have hholds := ih _ (by omega) _ hcut
    rw [Machine.cut, if_neg (by omega),
      show d + (k + 1) - (d + j - (d + i)) + (d + j - (d + i)) = d + (k + 1) by omega] at hholds
    exact hfails hholds

end Machine

end Lasso
