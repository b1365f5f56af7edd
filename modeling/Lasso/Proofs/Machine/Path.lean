import Lasso.Machine.Basic
import Lasso.Proofs.Machine.Timing

/-! # Paths of a machine

The constraints of a machine are predicates on the values of its variables, now and one step later.
A path is a sequence of such values that meets them, and unrolling a machine makes the expression
that holds on exactly its paths.
-/

namespace Lasso

set_option autoImplicit false

namespace View

/-- The values of the variables by time. -/
def word (V : View) (n : Nat) : Letter := V.letter (UInt64.ofNat n)

/-- Values now and one step later, with nothing known of any time. -/
def step (now next : Letter) : View
  | .current i => now i
  | .next i => next i
  | .timed _ _ => false

theorem letter_eq_word (V : View) (t : UInt64) : V.letter t = V.word t.toNat := by
  rw [word, UInt64.ofNat_toNat]

theorem letter_add_one_eq_word (V : View) (t : UInt64) :
    V.letter (t + 1) = V.word (t.toNat + 1) := by
  rw [word, UInt64.ofNat_add, UInt64.ofNat_toNat]
  rfl

theorem word_add_one (V : View) (t : UInt64) (j : Nat) :
    V.word ((t + 1).toNat + j) = V.word (t.toNat + (j + 1)) := by
  rw [word, word, UInt64.ofNat_add, UInt64.ofNat_toNat, UInt64.ofNat_add, UInt64.ofNat_toNat,
    UInt64.ofNat_add, UInt64.add_comm (UInt64.ofNat j), ← UInt64.add_assoc]
  rfl

end View

namespace Encoding

/-- The value of an untimed expression for given values now and one step later. -/
def holds (e : Encoding) (l : Lit) (now next : Letter) : Bool :=
  e.graph.eval (e.assign (View.step now next)) l

/-- The expression depends on the values now and one step later only. -/
def Untimed (e : Encoding) (l : Lit) : Prop := e.Denotes l (fun V => e.holds l V.now V.next)

/-- The expression depends on the values now only. -/
def Current (e : Encoding) (l : Lit) : Prop := e.Denotes l (fun V => e.holds l V.now V.now)

theorem Denotes.holds_eq {e : Encoding} {l : Lit} {φ : View → Bool} (h : e.Denotes l φ)
    (now next : Letter) : e.holds l now next = φ (View.step now next) :=
  (h.eq_eval_assign _).symm

theorem Denotes.untimed {e : Encoding} {l : Lit} {φ : Letter → Letter → Bool}
    (h : e.Denotes l (fun V => φ V.now V.next)) : e.Untimed l :=
  h.congr fun V => (h.holds_eq V.now V.next).symm

theorem Denotes.current {e : Encoding} {l : Lit} {φ : Letter → Bool}
    (h : e.Denotes l (fun V => φ V.now)) : e.Current l :=
  h.congr fun V => (h.holds_eq V.now V.now).symm

theorem Current.untimed {e : Encoding} {l : Lit} (h : e.Current l) : e.Untimed l :=
  Denotes.untimed (φ := fun now _ => e.holds l now now) h

theorem Current.holds_eq {e : Encoding} {l : Lit} (h : e.Current l) (now next : Letter) :
    e.holds l now next = e.holds l now now :=
  Denotes.holds_eq h now next

theorem Untimed.of_le {e e' : Encoding} (wf : e.WellFormed) (hle : e ≤ e') {l : Lit}
    (h : e.Untimed l) : e'.Untimed l :=
  (Denotes.of_le wf hle h).untimed

theorem Current.of_le {e e' : Encoding} (wf : e.WellFormed) (hle : e ≤ e') {l : Lit}
    (h : e.Current l) : e'.Current l :=
  Denotes.current (φ := fun now => e.holds l now now) (Denotes.of_le wf hle h)

theorem Untimed.holds_of_le {e e' : Encoding} (wf : e.WellFormed) (hle : e ≤ e') {l : Lit}
    (h : e.Untimed l) (now next : Letter) : e'.holds l now next = e.holds l now next :=
  Denotes.holds_eq (Denotes.of_le wf hle h) now next

theorem instantiate_untimed {e : Encoding} (wf : e.WellFormed) {l : Lit} (h : e.Untimed l)
    (t : UInt64) :
    e.Builds (instantiate l t e)
      (fun V => e.holds l (V.word t.toNat) (V.word (t.toNat + 1))) := by
  refine (instantiate_builds wf h t).congr fun V => ?_
  rw [View.now_atTime, View.next_atTime, V.letter_eq_word, V.letter_add_one_eq_word]

theorem instantiate_current {e : Encoding} (wf : e.WellFormed) {l : Lit} (h : e.Current l)
    (t : UInt64) :
    e.Builds (instantiate l t e) (fun V => e.holds l (V.word t.toNat) (V.word t.toNat)) := by
  refine (instantiate_builds wf h t).congr fun V => ?_
  rw [View.now_atTime, V.letter_eq_word]

end Encoding

namespace Machine

open Encoding

/-- The constraints of a machine are over the variables of an encoding. -/
structure Over (m : Machine) (e : Encoding) : Prop where
  init : e.Current m.init
  invar : e.Current m.invar
  trans : e.Untimed m.trans
  fairness : ∀ l ∈ m.fairness, e.Current l

theorem Over.of_le {m : Machine} {e e' : Encoding} (wf : e.WellFormed) (hle : e ≤ e')
    (h : m.Over e) : m.Over e' where
  init := h.init.of_le wf hle
  invar := h.invar.of_le wf hle
  trans := h.trans.of_le wf hle
  fairness l hl := (h.fairness l hl).of_le wf hle

/-- The values may be those of a first state. -/
def Initial (m : Machine) (e : Encoding) (a : Letter) : Prop := e.holds m.init a a

/-- The values may be those of a state. -/
def Allowed (m : Machine) (e : Encoding) (a : Letter) : Prop := e.holds m.invar a a

/-- The values of one step may be followed by those of another. -/
def Moves (m : Machine) (e : Encoding) (a b : Letter) : Prop := e.holds m.trans a b

/-- Steps between allowed states from one time to another. -/
def Steps (m : Machine) (e : Encoding) (w : Nat → Letter) (first count : Nat) : Prop :=
  m.Allowed e (w first) ∧
    ∀ j < count, m.Moves e (w (first + j)) (w (first + j + 1)) ∧ m.Allowed e (w (first + j + 1))

/-- A path of a length from a first state. -/
def IsPath (m : Machine) (e : Encoding) (w : Nat → Letter) (length : Nat) : Prop :=
  m.Initial e (w 0) ∧ (∀ j ≤ length, m.Allowed e (w j)) ∧
    ∀ j < length, m.Moves e (w j) (w (j + 1))

theorem isPath_iff {m : Machine} {e : Encoding} {w : Nat → Letter} {length : Nat} :
    m.IsPath e w length ↔ m.Initial e (w 0) ∧ m.Steps e w 0 length := by
  unfold IsPath Steps
  simp only [Nat.zero_add]
  constructor
  · rintro ⟨hinit, hallowed, hmoves⟩
    exact ⟨hinit, hallowed 0 (by omega), fun j hj => ⟨hmoves j hj, hallowed (j + 1) (by omega)⟩⟩
  · rintro ⟨hinit, hfirst, hsteps⟩
    refine ⟨hinit, fun j hj => ?_, fun j hj => (hsteps j hj).1⟩
    cases j with
    | zero => exact hfirst
    | succ j => exact (hsteps j (by omega)).2

theorem isPath_succ_iff {m : Machine} {e : Encoding} {w : Nat → Letter} {j : Nat} :
    m.IsPath e w (j + 1) ↔ m.IsPath e w j ∧ m.Steps e w j 1 := by
  constructor
  · rintro ⟨hinit, hallowed, hmoves⟩
    refine ⟨⟨hinit, fun i hi => hallowed i (by omega), fun i hi => hmoves i (by omega)⟩,
      hallowed j (by omega), fun i hi => ?_⟩
    obtain rfl : i = 0 := by omega
    exact ⟨hmoves j (by omega), hallowed (j + 1) (by omega)⟩
  · rintro ⟨⟨hinit, hallowed, hmoves⟩, -, hstep⟩
    obtain ⟨hmove, hlast⟩ := hstep 0 (by omega)
    refine ⟨hinit, fun i hi => ?_, fun i hi => ?_⟩
    · rcases Nat.lt_or_eq_of_le hi with hlt | rfl
      · exact hallowed i (by omega)
      · exact hlast
    · rcases Nat.lt_or_eq_of_le (Nat.le_of_lt_succ hi) with hlt | rfl
      · exact hmoves i hlt
      · exact hmove

instance (m : Machine) (e : Encoding) (a : Letter) : Decidable (m.Initial e a) :=
  inferInstanceAs (Decidable (_ = true))

instance (m : Machine) (e : Encoding) (a : Letter) : Decidable (m.Allowed e a) :=
  inferInstanceAs (Decidable (_ = true))

instance (m : Machine) (e : Encoding) (a b : Letter) : Decidable (m.Moves e a b) :=
  inferInstanceAs (Decidable (_ = true))

instance (m : Machine) (e : Encoding) (w : Nat → Letter) (first count : Nat) :
    Decidable (m.Steps e w first count) :=
  inferInstanceAs (Decidable (_ ∧ _))

instance (m : Machine) (e : Encoding) (w : Nat → Letter) (length : Nat) :
    Decidable (m.IsPath e w length) :=
  inferInstanceAs (Decidable (_ ∧ _))

section

variable {m : Machine} {e e' : Encoding} (wf : e.WellFormed) (hle : e ≤ e') (h : m.Over e)

include wf hle h

theorem Over.initial_iff (a : Letter) : m.Initial e' a ↔ m.Initial e a := by
  rw [Initial, Initial, h.init.untimed.holds_of_le wf hle]

theorem Over.allowed_iff (a : Letter) : m.Allowed e' a ↔ m.Allowed e a := by
  rw [Allowed, Allowed, h.invar.untimed.holds_of_le wf hle]

theorem Over.moves_iff (a b : Letter) : m.Moves e' a b ↔ m.Moves e a b := by
  rw [Moves, Moves, h.trans.holds_of_le wf hle]

theorem Over.steps_iff (w : Nat → Letter) (first count : Nat) :
    m.Steps e' w first count ↔ m.Steps e w first count := by
  simp only [Steps, h.allowed_iff wf hle, h.moves_iff wf hle]

theorem Over.isPath_iff (w : Nat → Letter) (length : Nat) :
    m.IsPath e' w length ↔ m.IsPath e w length := by
  simp only [IsPath, h.initial_iff wf hle, h.allowed_iff wf hle, h.moves_iff wf hle]

end

theorem unrollFrom_builds {m : Machine} (count : Nat) {e : Encoding} (wf : e.WellFormed)
    (h : m.Over e) {result : Lit} {ψ : View → Bool} (hresult : e.Denotes result ψ) (t : UInt64) :
    e.Builds (m.unrollFrom count t result e) (fun V => ψ V && decide (∀ j < count,
      m.Moves e (V.word (t.toNat + j)) (V.word (t.toNat + j + 1)) ∧
        m.Allowed e (V.word (t.toNat + j + 1)))) := by
  induction count generalizing e result ψ t with
  | zero => exact (Builds.of_denotes wf hresult).congr fun V => by simp
  | succ count ih =>
    have htrans := instantiate_untimed wf h.trans t
    have hinvar := instantiate_current htrans.wf (h.invar.of_le wf htrans.grows) (t + 1)
    have hstep := onGraph_builds Graph.and_computes hinvar.wf
      (hinvar.denotes_old htrans.wf htrans.denotes) hinvar.denotes
    have hto := le_trans htrans.grows (le_trans hinvar.grows hstep.grows)
    have hboth := onGraph_builds Graph.and_computes hstep.wf
      (hresult.of_le wf hto) hstep.denotes
    have hle := le_trans hto hboth.grows
    have hrest := ih hboth.wf (h.of_le wf hle) hboth.denotes (t + 1)
    refine (htrans.after (hinvar.after (hstep.after (hboth.after hrest)))).congr fun V => ?_
    have hfirst : V.word (t + 1).toNat = V.word (t.toNat + 0 + 1) := V.word_add_one t 0
    have hlater : ∀ j, V.word ((t + 1).toNat + j + 1) = V.word (t.toNat + (j + 1) + 1) := fun j =>
      V.word_add_one t (j + 1)
    rw [Bool.eq_iff_iff]
    simp only [Bool.and_eq_true, decide_eq_true_iff, V.word_add_one, hfirst, hlater,
      h.moves_iff wf hle, h.allowed_iff wf hle, Nat.forall_lt_succ_left,
      h.invar.untimed.holds_of_le wf htrans.grows, and_assoc]
    exact Iff.rfl

theorem unroll_builds {m : Machine} {e : Encoding} (wf : e.WellFormed) (h : m.Over e)
    (first last : UInt64) :
    e.Builds (m.unroll first last e)
      (fun V => decide (m.Steps e V.word first.toNat (last.toNat - first.toNat))) := by
  have hinvar := instantiate_current wf h.invar first
  have hrest := unrollFrom_builds (if first < last then (last - first).toNat else 0) hinvar.wf
    (h.of_le wf hinvar.grows) hinvar.denotes first
  refine (hinvar.after hrest).congr fun V => ?_
  have hcount : (if first < last then (last - first).toNat else 0) = last.toNat - first.toNat := by
    split
    · rename_i hlt
      exact UInt64.toNat_sub_of_le _ _ (UInt64.le_of_lt hlt)
    · rename_i hge
      have := UInt64.le_iff_toNat_le.1 (UInt64.not_lt.1 hge)
      omega
  rw [Bool.eq_iff_iff, Bool.and_eq_true, decide_eq_true_iff, decide_eq_true_iff, hcount]
  simp only [h.moves_iff wf hinvar.grows, h.allowed_iff wf hinvar.grows]
  exact Iff.rfl

theorem path_builds {m : Machine} {e : Encoding} (wf : e.WellFormed) (h : m.Over e)
    (length : UInt64) :
    e.Builds (m.path length e) (fun V => decide (m.IsPath e V.word length.toNat)) := by
  have hinit := instantiate_current wf h.init 0
  have hsteps := unroll_builds hinit.wf (h.of_le wf hinit.grows) 0 length
  have hboth := onGraph_builds Graph.and_computes hsteps.wf
    (hsteps.denotes_old hinit.wf hinit.denotes) hsteps.denotes
  refine (hinit.after (hsteps.after hboth)).congr fun V => ?_
  rw [Bool.eq_iff_iff, Bool.and_eq_true, decide_eq_true_iff, decide_eq_true_iff,
    h.steps_iff wf hinit.grows, isPath_iff]
  exact Iff.rfl

end Machine

end Lasso
