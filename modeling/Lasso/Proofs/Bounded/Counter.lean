import Lasso.Proofs.Bounded.InductionSoundness
import Lasso.Proofs.Machine.Accepted
import Lasso.Proofs.Machine.ModelFile

/-! # Binary counters

The state of a counter is a number in binary, which is zero at first and one greater after each
step.  So a counter repeats no state before it has been in all of them, and the last is the one with
all bits set.
-/

namespace Lasso

set_option autoImplicit false

namespace Machine

open Encoding

def binary (t : Nat) : Letter := fun i => t.testBit i

/-- Adding one changes the bits below which all are set. -/
theorem binary_succ (t i : Nat) :
    binary (t + 1) i = (binary t i ^^ decide (∀ j < i, binary t j)) := by
  unfold binary
  induction i generalizing t with
  | zero =>
    rw [Nat.testBit_zero, Nat.testBit_zero,
      decide_eq_true (fun j hj => absurd hj (Nat.not_lt_zero j))]
    rcases Nat.mod_two_eq_zero_or_one t with heven | hodd
    · simp [Nat.add_mod, heven]
    · simp [Nat.add_mod, hodd]
  | succ i ih =>
    simp only [Nat.testBit_succ, Nat.forall_lt_succ_left, Nat.testBit_zero, decide_eq_true_iff]
    rcases Nat.mod_two_eq_zero_or_one t with heven | hodd
    · rw [show (t + 1) / 2 = t / 2 by omega]
      simp [heven]
    · rw [show (t + 1) / 2 = t / 2 + 1 by omega, ih]
      simp [hodd]

theorem forall_binary_iff {n t : Nat} (ht : t < 2 ^ n) : (∀ i < n, binary t i) ↔ t + 1 = 2 ^ n := by
  have hones : ∀ i, (2 ^ n - 1).testBit i = decide (i < n) :=
    Nat.testBit_two_pow_sub_one n
  constructor
  · intro hall
    have heq : t = 2 ^ n - 1 := by
      refine Nat.eq_of_testBit_eq fun i => ?_
      rw [hones]
      by_cases hi : i < n
      · rw [decide_eq_true hi]
        exact hall i hi
      · rw [decide_eq_false hi]
        exact Nat.testBit_lt_two_pow (Nat.lt_of_lt_of_le ht (Nat.pow_le_pow_right Nat.two_pos
          (Nat.not_lt.1 hi)))
    omega
  · intro heq i hi
    rw [binary, show t = 2 ^ n - 1 by omega, hones]
    exact decide_eq_true hi

end Machine

def bitName (i : Nat) : String := String.ofList (List.replicate (i + 1) 'b')

/-- The variables of an encoding are bits. -/
structure Encoding.HasBits (e : Encoding) (n : Nat) : Prop where
  wf : e.WellFormed
  named : e.Named
  size : e.vars.size = n
  bit : ∀ i < n, ∃ x, e.vars[i]? = some x ∧ x.name = bitName i ∧ x.isInput = false

theorem Encoding.HasBits.exists_bit {e : Encoding} {n : Nat} (h : e.HasBits n) {x : Variable}
    (hx : x ∈ e.vars) : ∃ i < n, x.name = bitName i ∧ x.isInput = false := by
  obtain ⟨i, hi, hxi⟩ := Array.getElem_of_mem hx
  obtain ⟨y, hy, hbit⟩ := h.bit i (h.size ▸ hi)
  obtain rfl : x = y := Option.some.inj ((Array.getElem?_eq_some_iff.2 ⟨hi, hxi⟩).symm.trans hy)
  exact ⟨i, h.size ▸ hi, hbit⟩

namespace Machine

open Encoding

/-- A machine that counts in a number of bits. -/
structure IsCounter (m : Machine) (e : Encoding) (n : Nat) : Prop extends e.HasBits n where
  machine : m.Over e
  initial : ∀ a, m.Initial e a ↔ ∀ i < n, a i = false
  allowed : ∀ a, m.Allowed e a
  moves : ∀ a b, m.Moves e a b ↔ ∀ i < n, b i = (a i ^^ decide (∀ j < i, a j))

section

variable {m : Machine} {e : Encoding} {n : Nat} (h : m.IsCounter e n)

include h

theorem IsCounter.sameState_iff {a b : Letter} : e.sameState a b ↔ ∀ i < n, a i = b i := by
  have wf := h.wf
  rw [Encoding.sameState_iff]
  constructor
  · intro hsame i hi
    obtain ⟨x, hx, -, hrole⟩ := h.bit i hi
    obtain ⟨hmem, hindex⟩ := wf.mem_stateVariables hx hrole
    rw [← hindex]
    exact hsame x hmem
  · intro hbits x hx
    have hmem := Array.mem_toList_iff.1 (List.mem_filter.1 hx).1
    exact hbits x.index (h.size ▸ wf.lt_size_of_mem hmem)

theorem IsCounter.moves_binary (t : Nat) : m.Moves e (binary t) (binary (t + 1)) :=
  (h.moves _ _).2 fun i _ => binary_succ t i

theorem IsCounter.isPath_binary (k : Nat) : m.IsPath e binary k :=
  ⟨(h.initial _).2 fun i _ => Nat.zero_testBit i, fun _ _ => h.allowed _,
    fun j _ => h.moves_binary j⟩

/-- On a path the state after a number of steps is that number. -/
theorem IsCounter.path_eq {w : Nat → Letter} {k : Nat} (hw : m.IsPath e w k) {j : Nat}
    (hj : j ≤ k) : ∀ i < n, w j i = binary j i := by
  induction j with
  | zero =>
    intro i hi
    rw [(h.initial _).1 hw.1 i hi]
    exact (Nat.zero_testBit i).symm
  | succ j ih =>
    intro i hi
    have hbelow : ∀ l ≤ i, w j l = binary j l := fun l hl => ih (by omega) l (by omega)
    have hcarry : (∀ l < i, w j l) ↔ ∀ l < i, binary j l := by
      refine forall₂_congr fun l hl => ?_
      rw [hbelow l (Nat.le_of_lt hl)]
    rw [(h.moves _ _).1 (hw.2.2 j (by omega)) i hi, binary_succ, hbelow i (Nat.le_refl i)]
    simp only [hcarry]

variable {prop : Lit} (hprop : ∀ a b, e.holds prop a b = !decide (∀ i < n, a i))

include hprop

omit h in
theorem holds_binary_iff {t : Nat} (ht : t < 2 ^ n) (b : Letter) :
    e.holds prop (binary t) b ↔ t + 1 ≠ 2 ^ n := by
  rw [hprop, Bool.not_eq_true', decide_eq_false_iff_not, forall_binary_iff ht]

theorem IsCounter.holdsAt {k : Nat} (hk : k + 1 < 2 ^ n) : m.HoldsAt e prop k := by
  intro w hw
  have hstate : (∀ i < n, w k i) ↔ ∀ i < n, binary k i := by
    refine forall₂_congr fun i hi => ?_
    rw [h.path_eq hw (Nat.le_refl k) i hi]
  have hbinary := (holds_binary_iff hprop (show k < 2 ^ n by omega) (binary k)).2 (by omega)
  rw [hprop] at hbinary ⊢
  simpa only [hstate] using hbinary

theorem IsCounter.not_holdsAt {k : Nat} (hk : k + 1 = 2 ^ n) : ¬ m.HoldsAt e prop k := by
  intro hholds
  exact (holds_binary_iff hprop (by omega) _).1 (hholds binary (h.isPath_binary k)) hk

end

end Machine

namespace Encoding

open Machine

def bitExpr (i : Nat) : Expr := .symbol () (bitName i)

def bits (n : Nat) : List Expr := (List.range n).map bitExpr

theorem bitName_ne {s : String} (hs : s.toList.all (· = 'b') = false) (i : Nat) :
    bitName i ≠ s := by
  rintro rfl
  obtain ⟨c, hc, hne⟩ := List.all_eq_false.1 hs
  rw [bitName, String.toList_ofList] at hc
  exact hne (decide_eq_true (List.eq_of_mem_replicate hc))

theorem bitName_inj {i j : Nat} (h : bitName i = bitName j) : i = j := by
  have hlength := congrArg (fun s : String => s.toList.length) h
  simpa [bitName] using hlength

theorem isReserved_bitName (i : Nat) : isReserved (bitName i) = false := by
  have hne : ∀ s ∈ ["true", "TRUE", "false", "FALSE", "next"], bitName i ≠ s := by
    intro s hs
    refine bitName_ne ?_ i
    revert s
    decide
  simp only [isReserved, decide_eq_false_iff_not]
  exact fun hmem => hne _ hmem rfl

theorem digit?_bitName (i : Nat) : digit? (bitName i) = none := by
  rw [digit?, if_neg (bitName_ne (by decide) i), if_neg (bitName_ne (by decide) i)]

section

variable {e : Encoding} {k : Nat} (h : e.HasBits k)

include h

theorem HasBits.of_vars {e' : Encoding} (wf : e'.WellFormed) (hvars : e'.vars = e.vars) :
    e'.HasBits k :=
  ⟨wf, h.named.of_vars hvars, hvars ▸ h.size, hvars ▸ h.bit⟩

theorem HasBits.conditionName? {i : Nat} (hi : i < k) :
    ∃ x, e.vars[i]? = some x ∧ x.isInput = false ∧
      e.conditionName? (bitName i) = some x.current := by
  obtain ⟨x, hx, hname, hrole⟩ := h.bit i hi
  refine ⟨x, hx, hrole, ?_⟩
  rw [← hname, h.named.conditionName? (Array.mem_of_getElem? hx), hname, digit?_bitName]
  rfl

theorem HasBits.nameValue {i : Nat} (hi : i < k) (a : Letter) :
    e.nameValue a (bitName i) = a i := by
  obtain ⟨x, hx, hname, -⟩ := h.bit i hi
  rcases conditionName?_cases (bitName i) with ⟨b, hb, -⟩ | ⟨-, hval⟩
  · -- a bit is no constant
    obtain ⟨y, hy, -, hcurrent⟩ := h.conditionName? hi
    have hconstant : y.current = Graph.ofBool b :=
      (Option.some.inj (hcurrent.symm.trans (hb e))).trans (by cases b <;> rfl)
    exact absurd hconstant (h.wf.current_ne_ofBool (Array.mem_of_getElem? hy) b)
  · rw [hval, ← hname, h.named.lookup? (Array.mem_of_getElem? hx), Option.elim_some,
      h.wf.index i x hx]

theorem HasBits.declare : ∃ x, (declare false (bitName k) e).1 = .ok x ∧
    (declare false (bitName k) e).2.HasBits (k + 1) := by
  have hnew : e.lookup? (bitName k) = none := by
    refine Array.find?_eq_none.2 fun x hx hname => ?_
    obtain ⟨i, hi, hbit, -⟩ := h.exists_bit hx
    exact absurd (bitName_inj (hbit.symm.trans (of_decide_eq_true hname))) (by omega)
  obtain ⟨x, hx, hname, hrole, hvars⟩ : ∃ x : Variable, (Encoding.declare false (bitName k) e).1 =
      .ok x ∧ x.name = bitName k ∧ x.isInput = false ∧
      (Encoding.declare false (bitName k) e).2.vars = e.vars.push x := by
    rw [declare_eq, if_neg (by rw [hnew]; exact Bool.false_ne_true),
      if_neg (by rw [isReserved_bitName]; exact Bool.false_ne_true)]
    exact ⟨_, rfl, rfl, rfl, rfl⟩
  refine ⟨x, hx, (declare_grows h.wf false (bitName k)).1, declare_named h.named false (bitName k),
    by rw [hvars, Array.size_push, h.size], fun i hi => ?_⟩
  rcases Nat.lt_succ_iff_lt_or_eq.1 hi with hlt | rfl
  · obtain ⟨y, hy, hbit⟩ := h.bit i hlt
    refine ⟨y, ?_, hbit⟩
    rw [hvars, Array.getElem?_push, if_neg (by rw [h.size]; omega), hy]
  · exact ⟨x, by rw [hvars, ← h.size, Array.getElem?_push_size], hname, hrole⟩

end

end Encoding

theorem Machine.IsCounter.of_le {m : Machine} {e e' : Encoding} {n : Nat} (h : m.IsCounter e n)
    (wf : e'.WellFormed) (hle : e ≤ e') (hvars : e'.vars = e.vars) : m.IsCounter e' n where
  toHasBits := h.toHasBits.of_vars wf hvars
  machine := h.machine.of_le h.wf hle
  initial a := (h.machine.initial_iff h.wf hle a).trans (h.initial a)
  allowed a := (h.machine.allowed_iff h.wf hle a).2 (h.allowed a)
  moves a b := (h.machine.moves_iff h.wf hle a b).trans (h.moves a b)

namespace SExpr

variable {α : Type}

end SExpr

namespace Model

open Encoding SExpr

end Model

namespace Encoder

open Encoding

end Encoder

end Lasso
