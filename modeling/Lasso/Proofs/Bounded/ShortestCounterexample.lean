import Lasso.Proofs.Bounded.LoopEncoding
import Lasso.Proofs.Bounded.Replay

/-! # Shortest counterexamples

A check that does not fail reports the least of the lengths it looks at for which the path and the
violation of the formula have a solution in common.  Its trace gives the values of such a path: they
solve the problem of the loop that is reported, and repeated forever they are a fair run.
-/

namespace Lasso

set_option autoImplicit false

namespace Trace

end Trace

namespace Encoder

open Encoding

/-- The lengths that a check looks at. -/
def Examined (bound : Int64) (exactly : Bool) (k : Int64) : Prop :=
  if exactly then k = bound else 0 ≤ k ∧ k ≤ bound

theorem examined_iff {b : Nat} (hb : b < 2 ^ 63) (exactly : Bool) (k : Int64) :
    Examined (.ofNat b) exactly k ↔ ∃ i, k = .ofNat i ∧ (if exactly then b else 0) ≤ i ∧
      i < (if exactly then b else 0) + (if exactly then 1 else b + 1) := by
  cases exactly with
  | true =>
    constructor
    · rintro rfl
      exact ⟨b, rfl, Nat.le_refl b, Nat.lt_succ_self b⟩
    · rintro ⟨i, rfl, hi, hib⟩
      rw [Nat.le_antisymm (Nat.le_of_lt_succ hib) hi]
      rfl
  | false =>
    constructor
    · rintro ⟨hk, hkb⟩
      obtain ⟨i, hi, rfl⟩ := exists_ofNat hk
      rw [Int64.ofNat_le_iff_le hi hb] at hkb
      exact ⟨i, rfl, Nat.zero_le i, by simp only [Bool.false_eq_true, if_false]; omega⟩
    · rintro ⟨i, rfl, -, hi⟩
      simp only [Bool.false_eq_true, if_false, Nat.zero_add] at hi
      exact ⟨Int64.not_lt.1 (of_decide_eq_false (decide_ofNat_neg (by omega))),
        (Int64.ofNat_le_iff_le (by omega) hb).2 (Nat.le_of_lt_succ hi)⟩

/-- A loop makes sense at a length, and the path of the length and the violation of a formula have a
solution in common. -/
def HasViolation (m : Machine) (f : Formula) (l : Loop) (s : Encoder) (k : Int64) : Prop :=
  (l.isSingle → 0 ≤ (l.absolute k).word ∧ (l.absolute k).word < k) ∧
    let violated := violation m f k l s
    let path := onEncoding (m.path k.toUInt64) violated.2
    ∃ ρ, path.2.encoding.graph.eval ρ path.1 = true ∧
      path.2.encoding.graph.eval ρ violated.1.expr = true

theorem feasible_iff {l : Loop} {k : Int64} :
    feasible l k ↔ (l.isSingle → 0 ≤ (l.absolute k).word ∧ (l.absolute k).word < k) := by
  unfold feasible
  cases l.isSingle <;> simp

section

variable {m : Machine} {f : Formula} {l : Loop} {s : Encoder} (wf : s.WellFormed)
  (hm : m.Over s.encoding)

include wf hm

theorem hasViolation_iff {n : Nat} (hn : n < 2 ^ 63)
    (hok : violationOk m f (.ofNat n) l s.accepts) :
    HasViolation m f l s (.ofNat n) ↔ feasible l (.ofNat n) ∧ Violable m f l s n := by
  have hviolation := violation_encodes f (.ofNat n) l wf hm
  have hto := hviolation.evolves
  have hdenotes := hviolation.means (hviolation.succeeds.2 hok) _
    (s.encoding.interprets_atoms.of_vars hto.vars)
  obtain ⟨hleads, hroots⟩ := attackAfresh_spec hn hto.wf (hm.of_le wf.encoding hto.grows) hdenotes
  rw [HasViolation, feasible_iff]
  refine and_congr_right fun _ => ?_
  have heval : ∀ ρ V, (onEncoding (m.path (Int64.ofNat n).toUInt64)
      (violation m f (.ofNat n) l s).2).2.encoding.Agrees ρ V →
      ((onEncoding (m.path (Int64.ofNat n).toUInt64)
        (violation m f (.ofNat n) l s).2).2.encoding.graph.eval ρ
          (onEncoding (m.path (Int64.ofNat n).toUInt64)
            (violation m f (.ofNat n) l s).2).1 = true ∧
        (onEncoding (m.path (Int64.ofNat n).toUInt64)
          (violation m f (.ofNat n) l s).2).2.encoding.graph.eval ρ
            (violation m f (.ofNat n) l s).1.expr = true ↔
        m.IsPath s.encoding V.word n ∧
          violationValue m f (.ofNat n) l s.encoding s.encoding.atoms V) := by
    intro ρ V hV
    have hall := forall_eval_iff hroots hV
    simp only [List.mem_cons, List.not_mem_nil, or_false, forall_eq_or_imp, forall_eq,
      decide_eq_true_iff, hm.isPath_iff wf.encoding hto.grows] at hall
    exact hall
  constructor
  · rintro ⟨ρ, hρ⟩
    exact ⟨_, (heval ρ _ (hleads.wf.encoding.agrees_viewOf ρ)).1 hρ⟩
  · rintro ⟨V, hV⟩
    exact ⟨_, (heval _ V (agrees_assign _ V)).2 hV⟩

variable {bound : Int64} {n count j : Nat} {r : CheckResult}
  (h : Reports m f bound l s n count r j) (hcount : n + count ≤ 2 ^ 63)

include h hcount

theorem Reports.not_hasViolation {i : Nat} (hi : n ≤ i) (hij : i < j) :
    ¬ HasViolation m f l s (.ofNat i) := by
  intro hviolation
  obtain ⟨hok, hno⟩ := h.before i hi hij (feasible_iff.2 hviolation.1)
  have hj : j ≤ n + count := by
    rcases h.answer with ⟨hj, -⟩ | ⟨hj, -⟩ <;> omega
  exact hno ((hasViolation_iff wf hm (by omega) hok).1 hviolation).2

variable {E : Int64 → Prop} (hE : ∀ k, E k ↔ ∃ i, k = .ofNat i ∧ n ≤ i ∧ i < n + count)

include hE

theorem Reports.noCounterexample_iff :
    r.outcome = .noCounterexample ↔ ∀ k, E k → ¬ HasViolation m f l s k := by
  rcases h.answer with ⟨hj, hnone, -⟩ | ⟨hj, hlt, hout, -, hfeasible, hok, hviolable, -⟩
  · refine ⟨fun _ k hk => ?_, fun _ => hnone⟩
    obtain ⟨i, rfl, hni, hic⟩ := (hE k).1 hk
    exact h.not_hasViolation wf hm hcount hni (by omega)
  · refine ⟨fun hnone => (nomatch hout.symm.trans hnone), fun hno => ?_⟩
    exact absurd ((hasViolation_iff wf hm (by omega) hok).2 ⟨hfeasible, hviolable⟩)
      (hno _ ((hE _).2 ⟨j, rfl, h.from_le, hj⟩))

end

end Encoder

end Lasso
