import Lasso.Bounded.Induction
import Lasso.Proofs.Bounded.Fairness
import Lasso.Proofs.Bounded.Times

/-! # Distinct states

That no state is repeated up to a time is built pair by pair.
-/

namespace Lasso

set_option autoImplicit false

namespace Encoder

open Encoding

/-- From `s`, an expression was made for a function of views. -/
structure Makes (s : Encoder) (r : Lit × Encoder) (φ : View → Bool) : Prop where
  leads : s.Leads r.2
  denotes : r.2.encoding.Denotes r.1 φ

section

variable {s s' : Encoder} {φ ψ : View → Bool}

theorem Makes.after {r : Lit × Encoder} (h : s.Leads s') (h' : s'.Makes r φ) : s.Makes r φ :=
  ⟨h.trans h'.leads, h'.denotes⟩

theorem Makes.congr {r : Lit × Encoder} (h : s.Makes r φ) (heq : ∀ V, φ V = ψ V) : s.Makes r ψ :=
  ⟨h.leads, h.denotes.congr heq⟩

theorem Makes.of_builds (wf : s.WellFormed) {m : StateM Encoding Lit}
    (h : s.encoding.Builds (m s.encoding) φ) : s.Makes (onEncoding m s) φ :=
  ⟨onEncoding_evolves wf h _, h.denotes⟩

theorem Makes.join {join : Lit → Lit → StateM Graph Lit} {op : Bool → Bool → Bool}
    (hjoin : Graph.Computes join op) (wf : s.WellFormed) {a b : Lit} (ha : s.encoding.Denotes a φ)
    (hb : s.encoding.Denotes b ψ) :
    s.Makes (onGraph (join a b) s) (fun V => op (φ V) (ψ V)) :=
  Makes.of_builds wf (onGraph_builds hjoin wf.encoding ha hb)

theorem Evolves.denotes (h : s.Leads s') (wf : s.WellFormed) {l : Lit}
    (hl : s.encoding.Denotes l φ) : s'.encoding.Denotes l φ :=
  hl.of_le wf.encoding h.grows

theorem Evolves.sameState_eq (h : s.Leads s') (a b : Letter) :
    s'.encoding.sameState a b = s.encoding.sameState a b := by
  unfold Encoding.sameState stateVariables
  rw [h.vars]

theorem differsFrom_succ (time : UInt64) (count : Nat) (later : UInt64) (result : Lit)
    (s : Encoder) :
    differsFrom time (count + 1) later result s =
      let same := onEncoding (sameAt later time s.encoding.stateVariables Graph.truth) s
      let both := onGraph (Graph.and result same.1.not) same.2
      differsFrom time count (later + 1) both.1 both.2 := rfl

theorem differsFrom_makes (i count j : Nat) (wf : s.WellFormed) {result : Lit}
    (hresult : s.encoding.Denotes result φ) :
    s.Makes (differsFrom (.ofNat i) count (.ofNat j) result s)
      (fun V => φ V && (List.range' j count).all fun t =>
        !s.encoding.sameState (V.word i) (V.word t)) := by
  induction count generalizing s result φ j with
  | zero => exact ⟨.refl wf, hresult.congr fun V => (Bool.and_true _).symm⟩
  | succ count ih =>
    have hsame := Makes.of_builds wf (sameAt_builds (.ofNat j) (.ofNat i)
      s.encoding.stateVariables wf.encoding (denotes_truth wf.encoding))
    have hboth := Makes.join Graph.and_computes hsame.leads.wf (hsame.leads.denotes wf hresult)
      hsame.denotes.not
    have hrest := ih (j + 1) hboth.leads.wf hboth.denotes
    rw [UInt64.ofNat_add] at hrest
    rw [differsFrom_succ]
    refine (Makes.after hsame.leads (Makes.after hboth.leads hrest)).congr fun V => ?_
    simp only [hboth.leads.sameState_eq, hsame.leads.sameState_eq, Bool.true_and]
    rw [List.range'_succ, List.all_cons, Bool.and_assoc]
    rfl

theorem differ_makes (count i : Nat) (wf : s.WellFormed) {result : Lit}
    (hresult : s.encoding.Denotes result φ) :
    s.Makes (differ count (.ofNat i) result s)
      (fun V => φ V && (List.range' i count).all fun a =>
        (List.range' (a + 1) (i + count - a)).all fun b =>
          !s.encoding.sameState (V.word a) (V.word b)) := by
  induction count generalizing s result φ i with
  | zero => exact ⟨.refl wf, hresult.congr fun V => (Bool.and_true _).symm⟩
  | succ count ih =>
    have hfirst := differsFrom_makes i (count + 1) (i + 1) wf hresult
    have hrest := ih (i + 1) hfirst.leads.wf hfirst.denotes
    rw [UInt64.ofNat_add] at hfirst hrest
    refine (Makes.after hfirst.leads hrest).congr fun V => ?_
    simp only [hfirst.leads.sameState_eq]
    rw [List.range'_succ (s := i), List.all_cons, Bool.and_assoc, Nat.add_sub_cancel_left,
      show i + 1 + count = i + (count + 1) by omega]

theorem loopFree_makes (last : Int64) (wf : s.WellFormed) :
    s.Makes (loopFree last s) (fun V => decide (∀ j ≤ last.toNatClampNeg, ∀ i < j,
      s.encoding.sameState (V.word i) (V.word j) = false)) := by
  unfold loopFree
  refine (differ_makes last.toNatClampNeg 0 wf (denotes_truth wf.encoding)).congr fun V => ?_
  rw [Bool.true_and, Bool.eq_iff_iff, decide_eq_true_iff]
  simp only [List.all_eq_true, List.mem_range'_1, Bool.not_eq_true']
  constructor
  · intro h j hj i hij
    exact h i (by omega) j (by omega)
  · intro h i hi j hj
    exact h j (by omega) i (by omega)

end

end Encoder

end Lasso
