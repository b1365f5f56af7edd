import Lasso.Proofs.Bounded.History
import Lasso.Proofs.Bounded.LoopingPath

/-! # Formulas on looping paths

The encoding of a formula at a time of a looping path holds if the formula holds there on the
infinite word, with until and its dual judged no later than the loop.  That is the truth unless they
are met after the loop.
-/

namespace Lasso

set_option autoImplicit false

namespace Encoder

open Encoding

section

variable {s : Encoder} (wf : s.WellFormed) {f : Formula} (hf : f.isFuture)
  (hatoms : ∀ x ∈ f.atoms, s.accepts x) {k l t o : Nat} (hl : l < k) (ht : t < k)
  (ho : o + k < 2 ^ 63) (hloop : (Loop.mk (.ofNat l)).isSingle)

include wf hf hl ht ho hloop

include hatoms in
theorem looping_succeeds :
    (looping f (.ofNat t) (.ofNat k) ⟨.ofNat l⟩ (.ofNat o) s).1.error? = none := by
  refine (looping_meets f _ _ _ _ s wf).succeeds.2 (Bool.and_eq_true_iff.2 ⟨?_, ?_⟩)
  · exact loopingArgs_ofNat hl ho ht hloop
  · exact loopingOk_of_isFuture hf hatoms _ _ _

theorem looping_eval_iff
    (hok : (looping f (.ofNat t) (.ofNat k) ⟨.ofNat l⟩ (.ofNat o) s).1.error? = none)
    {ρ : Assignment} {V : View}
    (hV : (looping f (.ofNat t) (.ofNat k) ⟨.ofNat l⟩ (.ofNat o) s).2.encoding.Agrees ρ V) :
    (looping f (.ofNat t) (.ofNat k) ⟨.ofNat l⟩ (.ofNat o) s).2.encoding.graph.eval ρ
        (looping f (.ofNat t) (.ofNat k) ⟨.ofNat l⟩ (.ofNat o) s).1.expr = true ↔
      f.HoldsEarly l (s.encoding.along (V.lasso o k l)) t := by
  have hmeets := looping_meets f (.ofNat t) (.ofNat k) ⟨.ofNat l⟩ (.ofNat o) s wf
  have hnone : ¬ (Loop.mk (.ofNat l)).isNone := Bool.eq_false_iff.1 (Loop.isSingle_iff.1 hloop).1
  have hinterprets := s.encoding.interprets_atoms.of_vars hmeets.evolves.vars
  rw [(hmeets.means hok _ hinterprets).eval ρ V hV]
  exact loopingValue_atoms_iff hl (by omega) hnone s.encoding V o hf ht

end

/-- A formula about the future whose atomic propositions are conditions has an encoding at every
time of a looping path, whatever the encoder was used for before.  It holds under an assignment if
the formula, judged early, holds on the infinite word of the path, and if until and its dual are not
met after the loop, that is to say if the formula holds on the word. -/
theorem looping_judges_early [Solver] {m : Machine} {e : Encoding} {table : Table} {s : Encoder}
    (hbuilt : m.Built e) (huses : Uses m (fresh e table) s) {f : Formula} (hf : f.isFuture)
    (hatoms : ∀ x ∈ f.atoms, ((condition false x).run s.encoding).1.isOk) {k l t o : Nat}
    (hl : l < k) (ht : t < k) (ho : o + k < 2 ^ 63) (hloop : (Loop.mk (.ofNat l)).isSingle) :
    let r := looping f (.ofNat t) (.ofNat k) ⟨.ofNat l⟩ (.ofNat o) s
    r.1.error? = none ∧ ∀ ρ V, r.2.encoding.Agrees ρ V →
      (r.2.encoding.graph.eval ρ r.1.expr = true ↔
        f.HoldsEarly l (s.encoding.along (V.lasso o k l)) t) ∧
      (f.Aligned k l t → (r.2.encoding.graph.eval ρ r.1.expr = true ↔
        f.Holds (s.encoding.along (V.lasso o k l)) t)) := by
  intro r
  obtain ⟨wf, -⟩ := huses.wellFormed hbuilt.wellFormed.1 hbuilt.wellFormed.2
  have hok := looping_succeeds wf hf (fun x hx => (condition_isOk_iff wf.encoding).1 (hatoms x hx))
    hl ht ho hloop
  refine ⟨hok, fun ρ V hV => ?_⟩
  have heval := looping_eval_iff wf hf hl ht ho hloop hok hV
  refine ⟨heval, fun haligned => heval.trans ?_⟩
  exact Formula.holdsEarly_iff (recurs_along s.encoding V o hl) hl hf ht haligned

def pairEncoding : Encoding := (Encoding.declare false "q" (Encoding.declare false "p" ∅).2).2

theorem built_pairEncoding : ({} : Machine).Built pairEncoding :=
  (Machine.Built.empty.declare false "p").declare false "q"

/-- Until one step before a state, where it is met at the loop. -/
theorem looping_judges_early_until_next :
    let f : Formula := .binary .untl (.atom (.symbol () "p"))
      (.unary .next (.atom (.symbol () "q")))
    let r := looping f 1 3 ⟨1⟩ 2 (fresh pairEncoding {})
    r.1.error? = none ∧ ∀ ρ V, r.2.encoding.Agrees ρ V →
      (r.2.encoding.graph.eval ρ r.1.expr = true ↔
        f.HoldsEarly 1 (pairEncoding.along (V.lasso 2 3 1)) 1) ∧
      (f.Aligned 3 1 1 → (r.2.encoding.graph.eval ρ r.1.expr = true ↔
        f.Holds (pairEncoding.along (V.lasso 2 3 1)) 1)) := by
  refine looping_judges_early (k := 3) (l := 1) (t := 1) (o := 2) built_pairEncoding .refl rfl
    (fun x hx => ?_) (by decide) (by decide) (by decide) (by decide)
  have haccepts : ∀ x ∈ [(.symbol () "p" : Expr), .symbol () "q"],
      pairEncoding.accepts false x := by decide
  exact (condition_isOk_iff built_pairEncoding.wellFormed.1).2 (haccepts x hx)

/-- After the loop until is judged at the loop: it is encoded as true where the second variable
holds at the loop only, and the first variable nowhere. -/
theorem looping_until_after_loop :
    let f : Formula := .binary .untl (.atom (.symbol () "p")) (.atom (.symbol () "q"))
    let r := looping f 1 2 ⟨0⟩ 0 (fresh pairEncoding {})
    r.1.error? = none ∧ ∃ ρ V, r.2.encoding.Agrees ρ V ∧
      r.2.encoding.graph.eval ρ r.1.expr = true ∧
      ¬ f.Holds (pairEncoding.along (V.lasso 0 2 0)) 1 := by
  intro f r
  have wf := wellFormed_of_entries (s := fresh pairEncoding {}) built_pairEncoding.wellFormed.1 rfl
  have hok := looping_succeeds (f := f) (k := 2) (l := 0) (t := 1) (o := 0) wf rfl
    (show ∀ x ∈ [(.symbol () "p" : Expr), .symbol () "q"], pairEncoding.accepts false x by decide)
    (by decide) (by decide) (by decide) (by decide)
  let V := View.ofWord fun n i => n == 0 && i == 1
  have hV := r.2.encoding.agrees_assign V
  refine ⟨hok, _, V, hV, (looping_eval_iff (k := 2) (l := 0) (t := 1) (o := 0) wf rfl
    (by decide) (by decide) (by decide) (by decide) hok hV).2 ?_, ?_⟩
  · exact ⟨0, Nat.le_refl 0, rfl, fun j _ hj => absurd hj (Nat.not_lt_zero j)⟩
  · rintro ⟨n, hn, hq, hp⟩
    rcases Nat.eq_or_lt_of_le hn with rfl | hlt
    · cases hq
    · cases hp 1 (Nat.le_refl 1) hlt

end Encoder

end Lasso
