import Lasso.Proofs.Bounded.LoopEncoding
import Lasso.Proofs.Bounded.Witness

/-! # Problems of a single loop

The problem of a length and a loop holds on the paths of the machine that repeat the state of the
loop, meet every fairness obligation on the way, and describe an infinite word on which the formula
fails.
-/

namespace Lasso

set_option autoImplicit false

namespace Encoder

open Encoding

section

variable {k l : Nat} (hl : l < k) (hk : k < 2 ^ 63) {loop : Loop}
  (hloop : loop = ⟨.ofNat l⟩ ∨ loop = ⟨.ofNat l - .ofNat k⟩)
  (hsingle : (Loop.mk (.ofNat l)).isSingle)

include hl hk hloop hsingle

theorem absolute_eq : loop.isSingle ∧ loop.absolute (.ofNat k) = ⟨.ofNat l⟩ := by
  rcases hloop with rfl | rfl
  · exact ⟨hsingle, Loop.absolute_ofNat (by omega) _⟩
  · exact Loop.absolute_relative hl hk

theorem violationOk_of_isFuture (m : Machine) {f : Formula} (hf : f.isFuture) {acc : Expr → Bool}
    (hacc : ∀ x ∈ f.atoms, acc x) : violationOk m f (.ofNat k) loop acc := by
  obtain ⟨hloop, habs⟩ := absolute_eq hl hk hloop hsingle
  rw [violationOk_single _ _ _ _ hloop, habs]
  refine Bool.and_eq_true_iff.2 ⟨checkSemantics_single hk hl hloop habs, ?_⟩
  exact onLoopOk_of_isFuture hl hk hsingle (Formula.isFuture_normalise hf true) fun x hx =>
    hacc x (Formula.mem_atoms_normalise hx)

/-- A flat formula is violated on a path with a loop if it fails on the word of the path. -/
theorem violationValue_iff (m : Machine) {f : Formula} (hf : f.isFuture) (hflat : f.isFlat)
    (e : Encoding) (V : View) :
    violationValue m f (.ofNat k) loop e e.atoms V ↔
      e.sameState (V.word l) (V.word k) ∧
        (∀ o ∈ m.fairness, ∃ j, l ≤ j ∧ j < k ∧ e.holds o (V.word j) (V.word j)) ∧
        ¬ f.Holds (e.along (V.lasso 0 k l)) 0 := by
  obtain ⟨hloop, habs⟩ := absolute_eq hl hk hloop hsingle
  have hnone : ¬ (Loop.mk (.ofNat l)).isNone := Bool.eq_false_iff.1 (Loop.isSingle_iff.1 hsingle).1
  have hfuture := Formula.isFuture_normalise hf true
  have haligned := Formula.aligned_of_isFlat (k := k) (Formula.isFlat_normalise hflat true)
    (Nat.zero_le l)
  have hword := loopingValue_atoms_iff hl hk hnone e V 0 hfuture (n := 0) (by omega)
  rw [violationValue_single _ _ _ _ _ _ hloop, habs, onLoopValue_iff hl hk hsingle]
  refine and_congr_right fun _ => and_congr_right fun _ => hword.trans ?_
  rw [Formula.holdsEarly_iff (recurs_along e V 0 hl) hl hfuture (by omega) haligned]
  exact Formula.holds_negation _ f 0

end

/-- The problem of a flat formula about the future, whose atomic propositions are conditions, for a
loop that is given as a time or relative to the bound.  The words for no loop and for any loop are
no times.  It holds under an assignment if the values are those of a path of the machine, repeat the
state of the loop, meet every fairness obligation on the loop, and describe a word on which the
formula fails. -/
theorem problem_single_iff [Solver] {m : Machine} {e : Encoding} {table : Table} {s : Encoder}
    (hbuilt : m.Built e) (huses : Uses m (fresh e table) s) {f : Formula} (hf : f.isFuture)
    (hflat : f.isFlat) (hatoms : ∀ x ∈ f.atoms, ((condition false x).run s.encoding).1.isOk)
    {k l : Nat} (hl : l < k) (hk : k < 2 ^ 63) {loop : Loop}
    (hloop : loop = ⟨.ofNat l⟩ ∨ loop = ⟨.ofNat l - .ofNat k⟩)
    (hsingle : (Loop.mk (.ofNat l)).isSingle) :
    let r := problem m f (.ofNat k) loop s
    r.1.error? = none ∧ ∀ ρ V, r.2.encoding.Agrees ρ V →
      (r.2.encoding.graph.eval ρ r.1.expr = true ↔
        m.IsPath s.encoding V.word k ∧
        (∀ x ∈ s.encoding.stateVariables, V.word l x.index = V.word k x.index) ∧
        (∀ o ∈ m.fairness, ∃ j, l ≤ j ∧ j < k ∧ s.encoding.holds o (V.word j) (V.word j)) ∧
        ¬ f.Holds (s.encoding.along (V.lasso 0 k l)) 0) := by
  intro r
  obtain ⟨wf, hm⟩ := huses.wellFormed hbuilt.wellFormed.1 hbuilt.wellFormed.2
  have hproblem := problem_encodes f (.ofNat k) loop wf hm
  have hok := hproblem.succeeds.2 (violationOk_of_isFuture hl hk hloop hsingle m hf fun x hx =>
    (condition_isOk_iff wf.encoding).1 (hatoms x hx))
  refine ⟨hok, fun ρ V hV => ?_⟩
  have hinterprets := s.encoding.interprets_atoms.of_vars hproblem.evolves.vars
  have hnat : (Int64.ofNat k).toUInt64.toNat = k :=
    UInt64.toNat_ofNat_of_lt' (show k < 2 ^ 64 by omega)
  rw [(hproblem.means hok _ hinterprets).eval ρ V hV, hnat, Bool.and_eq_true, decide_eq_true_iff,
    violationValue_iff hl hk hloop hsingle m hf hflat, sameState_iff]

/-- A machine with an obligation, and a loop that is given relative to the bound. -/
theorem problem_single_iff_relative :
    ∃ (m : Machine) (e : Encoding), m.Built e ∧ m.fairness.size = 1 ∧
      let f : Formula := .binary .or (.binary .untl (.atom (.symbol () "p"))
        (.atom (.symbol () "q"))) (.unary .next (.atom (.symbol () "p")))
      let r := problem m f (.ofNat 3) ⟨-2⟩ (fresh e {})
      r.1.error? = none ∧ ∀ ρ V, r.2.encoding.Agrees ρ V →
        (r.2.encoding.graph.eval ρ r.1.expr = true ↔
          m.IsPath e V.word 3 ∧ (∀ x ∈ e.stateVariables, V.word 1 x.index = V.word 3 x.index) ∧
          (∀ o ∈ m.fairness, ∃ j, 1 ≤ j ∧ j < 3 ∧ e.holds o (V.word j) (V.word j)) ∧
          ¬ f.Holds (e.along (V.lasso 0 3 1)) 0) := by
  have wf := built_pairEncoding.wellFormed.1
  have haccepts : ∀ x ∈ [(.symbol () "p" : Expr), .symbol () "q", .symbol () "p"],
      pairEncoding.accepts false x := by decide
  obtain ⟨l, hl⟩ := exists_condition wf (.symbol () "q") (haccepts _ (by decide))
  obtain ⟨wfe, -, hvars, -⟩ := (condition_attempts wf false (.symbol () "q" : Expr)).1
  have hbuilt := built_pairEncoding.fairness hl
  have hsize : (({} : Machine).addFairness l).fairness.size = 1 := rfl
  generalize ((condition false (.symbol () "q" : Expr)).run pairEncoding).2 = e at wfe hvars hbuilt
  generalize ({} : Machine).addFairness l = m at hbuilt hsize
  refine ⟨m, e, hbuilt, hsize, ?_⟩
  intro f
  have hfuture : f.isFuture := rfl
  have hflat : f.isFlat := rfl
  have hatoms : ∀ x ∈ f.atoms, ((condition false x).run e).1.isOk := fun x hx => by
    rw [condition_isOk_iff wfe, accepts_congr hvars]
    exact haccepts x hx
  -- The value of the formula is of no further use, and costly to compare.
  clear_value f
  exact problem_single_iff hbuilt .refl hfuture hflat hatoms (k := 3) (l := 1) (by decide)
    (by decide) (.inr (by decide)) (by decide)

/-- The last step of the longest paths has the number of the word for no loop.  As a loop that is
given relative to the bound it is rejected, although a path repeats its state and the formula fails
on the word of this path. -/
theorem problem_rejects_reserved_word :
    let f : Formula := .atom (.symbol () "p")
    let s := fresh pairEncoding {}
    let m : Machine := {}
    let k := 2 ^ 63 - 1
    let l := 2 ^ 63 - 2
    m.Built pairEncoding ∧ f.isFuture ∧ f.isFlat ∧
      (∀ x ∈ f.atoms, ((condition false x).run s.encoding).1.isOk) ∧ l < k ∧ k < 2 ^ 63 ∧
      (problem m f (.ofNat k) ⟨.ofNat l - .ofNat k⟩ s).1.error? ≠ none ∧
      ∃ V : View, m.IsPath s.encoding V.word k ∧
        (∀ x ∈ s.encoding.stateVariables, V.word l x.index = V.word k x.index) ∧
        (∀ o ∈ m.fairness, ∃ j, l ≤ j ∧ j < k ∧ s.encoding.holds o (V.word j) (V.word j)) ∧
        ¬ f.Holds (s.encoding.along (V.lasso 0 k l)) 0 := by
  intro f s m k l
  obtain ⟨wfe, hm⟩ := built_pairEncoding.wellFormed
  have wf : s.WellFormed := wellFormed_of_entries wfe rfl
  have haccepts : ∀ x ∈ f.atoms, s.encoding.accepts false x := by decide
  have hsucceeds := (problem_encodes f (.ofNat k) ⟨.ofNat l - .ofNat k⟩ wf hm).succeeds
  have hrejected : violationOk m f (.ofNat k) ⟨.ofNat l - .ofNat k⟩ s.accepts = false := by decide
  have hfails : (problem m f (.ofNat k) ⟨.ofNat l - .ofNat k⟩ s).1.error? ≠ none := by
    rw [ne_eq, hsucceeds, hrejected]
    exact Bool.false_ne_true
  have htruth : ∀ a b, s.encoding.holds Graph.truth a b := fun a b => Graph.eval_truth _ _
  refine ⟨built_pairEncoding, rfl, rfl, fun x hx => ?_, by decide, by decide, hfails,
    fun _ => false, ⟨htruth _ _, fun _ _ => htruth _ _, fun _ _ => htruth _ _⟩, fun _ _ => rfl,
    fun o ho => ?_, ?_⟩
  · exact (condition_isOk_iff wfe).2 (haccepts x hx)
  · exact absurd ho (Array.not_mem_empty o)
  · intro hholds
    cases hholds

end Encoder

end Lasso
