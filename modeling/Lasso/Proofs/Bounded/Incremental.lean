import Mathlib.Data.List.Forall2
import Lasso.Proofs.Bounded.Checker

/-! # Searching in one session

The facts of a session describe the paths of the length that it has been extended to.  So the
questions that are put to it are those that are put afresh for each length.
-/

namespace Lasso

set_option autoImplicit false

namespace Encoder

open Encoding

/-- The facts of a session hold on the paths of its length, which is at most `n`. -/
def Describes (m : Machine) (n : Nat) (u : Unrolled) (s : Encoder) : Prop :=
  ∃ j ≤ n, u.length = .ofNat j ∧ ∃ φs, List.Forall₂ s.encoding.Denotes u.session.facts φs ∧
    ∀ V, (∀ φ ∈ φs, φ V = true) ↔ m.IsPath s.encoding V.word j

theorem Describes.of_leads {m : Machine} {n n' : Nat} {u : Unrolled} {s s' : Encoder}
    (wf : s.WellFormed) (hm : m.Over s.encoding) (h : Describes m n u s) (hn : n ≤ n')
    (hs : s.Leads s') : Describes m n' u s' := by
  obtain ⟨j, hj, hlength, φs, hfacts, hiff⟩ := h
  refine ⟨j, Nat.le_trans hj hn, hlength, φs, ?_, fun V => ?_⟩
  · exact hfacts.imp fun l φ hl => hl.of_le wf.encoding hs.grows
  · rw [hiff, hm.isPath_iff wf.encoding hs.grows]

theorem extend_succ (m : Machine) (count : Nat) (u : Unrolled) (s : Encoder) :
    extend m (count + 1) u s =
      let step := onEncoding (m.unroll u.length.toUInt64 (u.length + 1).toUInt64) s
      extend m count ⟨u.session.add [step.1], u.length + 1⟩ step.2 := rfl

/-- From a description of the paths of length `j`, steps are added up to length `j + count`. -/
theorem extend_spec {m : Machine} (count : Nat) {j : Nat} (hj : j + count < 2 ^ 63) {u : Unrolled}
    {s : Encoder} (wf : s.WellFormed) (hm : m.Over s.encoding) (hlength : u.length = .ofNat j)
    {φs : List (View → Bool)} (hfacts : List.Forall₂ s.encoding.Denotes u.session.facts φs)
    (hiff : ∀ V, (∀ φ ∈ φs, φ V = true) ↔ m.IsPath s.encoding V.word j) :
    s.Leads (extend m count u s).2 ∧ (extend m count u s).1.length = .ofNat (j + count) ∧
      ∃ ψs, List.Forall₂ (extend m count u s).2.encoding.Denotes
          (extend m count u s).1.session.facts ψs ∧
        ∀ V, (∀ φ ∈ ψs, φ V = true) ↔ m.IsPath s.encoding V.word (j + count) := by
  induction count generalizing j u s φs with
  | zero => exact ⟨.refl wf, hlength, φs, hfacts, hiff⟩
  | succ count ih =>
    have hnat : (UInt64.ofNat j).toNat = j ∧ (UInt64.ofNat (j + 1)).toNat = j + 1 :=
      ⟨UInt64.toNat_ofNat_of_lt' (show j < 2 ^ 64 by omega),
        UInt64.toNat_ofNat_of_lt' (show j + 1 < 2 ^ 64 by omega)⟩
    have hsucc : Int64.ofNat j + 1 = Int64.ofNat (j + 1) := (Int64.ofNat_add j 1).symm
    have hstep := Machine.unroll_builds wf.encoding hm (.ofNat j) (.ofNat (j + 1))
    rw [hnat.1, hnat.2, Nat.add_sub_cancel_left] at hstep
    have hleads := onEncoding_evolves wf hstep (fun _ => False)
    have hfacts' := List.rel_append (hfacts.imp fun l φ hl => hl.of_le wf.encoding hleads.grows)
      (.cons hstep.denotes .nil)
    obtain ⟨hrest, hlength', ψs, hψs, hiff'⟩ := ih (j := j + 1) (by omega) hleads.wf
      (hm.of_le wf.encoding hleads.grows) (u := ⟨u.session.add [_], .ofNat (j + 1)⟩) rfl hfacts'
      fun V => by
        rw [hm.isPath_iff wf.encoding hleads.grows, Machine.isPath_succ_iff, ← hiff]
        simp only [List.mem_append, List.mem_singleton, or_imp, forall_and, forall_eq,
          decide_eq_true_iff]
    rw [extend_succ, hlength, hsucc, show j + (count + 1) = j + 1 + count by omega]
    refine ⟨hleads.trans hrest, hlength', ψs, hψs, fun V => ?_⟩
    rw [hiff', hm.isPath_iff wf.encoding hleads.grows]

theorem attackOnward_eq [Solver] (m : Machine) (k : Int64) (violated : Lit) (u : Unrolled)
    (s : Encoder) :
    attackOnward m k violated u s =
      (((extend m (k.toInt - u.length.toInt).toNat u s).1.session.solve
        (extend m (k.toInt - u.length.toInt).toNat u s).2.encoding.graph [violated],
        (extend m (k.toInt - u.length.toInt).toNat u s).1),
        (extend m (k.toInt - u.length.toInt).toNat u s).2) := rfl

theorem attackOnward_answer [Solver] (m : Machine) (k : Int64) (violated : Lit) (u : Unrolled)
    (s : Encoder) :
    (attackOnward m k violated u s).1.1 = (attackOnward m k violated u s).2.encoding.graph.solve
      ((attackOnward m k violated u s).1.2.session.facts ++ [violated]) := by
  simp only [attackOnward_eq, Session.solve]

theorem attackOnward_spec [Solver] {m : Machine} {n : Nat} (hn : n < 2 ^ 63) {u : Unrolled}
    {s : Encoder} (wf : s.WellFormed) (hm : m.Over s.encoding) (hu : Describes m n u s)
    {violated : Lit} {φ : View → Bool} (hφ : s.encoding.Denotes violated φ) :
    s.Leads (attackOnward m (.ofNat n) violated u s).2 ∧
      Describes m n (attackOnward m (.ofNat n) violated u s).1.2
        (attackOnward m (.ofNat n) violated u s).2 ∧
      ∃ φs, List.Forall₂ (attackOnward m (.ofNat n) violated u s).2.encoding.Denotes
          ((attackOnward m (.ofNat n) violated u s).1.2.session.facts ++ [violated]) φs ∧
        ∀ V, (∀ ψ ∈ φs, ψ V = true) ↔ m.IsPath s.encoding V.word n ∧ φ V = true := by
  obtain ⟨j, hj, hlength, φs, hfacts, hiff⟩ := hu
  have hcount : ((Int64.ofNat n).toInt - u.length.toInt).toNat = n - j := by
    rw [hlength, Int64.toInt_ofNat_of_lt hn, Int64.toInt_ofNat_of_lt (by omega)]
    omega
  obtain ⟨hleads, hlength', ψs, hψs, hiff'⟩ := extend_spec (n - j) (by omega) wf hm hlength hfacts
    hiff
  rw [attackOnward_eq, hcount]
  rw [Nat.add_sub_cancel' hj] at hlength' hiff'
  refine ⟨hleads, ⟨n, Nat.le_refl n, hlength', ψs, hψs, fun V => ?_⟩, ψs ++ [φ], ?_, fun V => ?_⟩
  · rw [hiff', hm.isPath_iff wf.encoding hleads.grows]
  · exact List.rel_append hψs (.cons (hφ.of_le wf.encoding hleads.grows) .nil)
  · rw [← hiff']
    simp only [List.mem_append, List.mem_singleton, or_imp, forall_and, forall_eq]

theorem attackOnward_attacks [Solver] (m : Machine) : Attacks m (attackOnward m) (Describes m) where
  later wf hm hu hn hs := hu.of_leads wf hm hn hs
  leads hn wf hm hu hφ :=
    have h := attackOnward_spec hn wf hm hu hφ
    ⟨h.1, h.2.1⟩
  fails {n u s violated φ} hn wf hm hu hφ hnone V hV := by
    obtain ⟨hleads, -, φs, hroots, hiff⟩ := attackOnward_spec hn wf hm hu hφ
    rw [attackOnward_answer] at hnone
    have hno := (solve_eq_none_iff hleads.wf.encoding hroots).1 hnone V
    rw [hiff] at hno
    exact Bool.eq_false_iff.2 fun hφV => hno ⟨hV, hφV⟩
  succeeds {n u s violated φ ρ} hn wf hm hu hφ hsome V hV := by
    obtain ⟨hleads, -, φs, hroots, hiff⟩ := attackOnward_spec hn wf hm hu hφ
    rw [attackOnward_answer] at hsome
    exact (hiff V).1 ((forall_eval_iff hroots hV).1 fun l hl => Graph.eval_of_solve hsome hl)

theorem path_describes {m : Machine} {s : Encoder} (wf : s.WellFormed) (hm : m.Over s.encoding) :
    s.Leads (onEncoding (m.path 0) s).2 ∧
      Describes m 0 ⟨Session.add {} [(onEncoding (m.path 0) s).1], 0⟩
        (onEncoding (m.path 0) s).2 := by
  have hpath := Machine.path_builds wf.encoding hm 0
  have hto := onEncoding_evolves wf hpath (fun _ => False)
  refine ⟨hto, 0, Nat.le_refl 0, rfl, _, .cons hpath.denotes .nil, fun V => ?_⟩
  simp only [List.mem_singleton, forall_eq, decide_eq_true_iff, hm.isPath_iff wf.encoding hto.grows]
  rfl

theorem checkIncremental_leads [Solver] {m : Machine} (f : Formula) (bound : Int64) (l : Loop)
    (exactly : Bool) {s : Encoder} (wf : s.WellFormed) (hm : m.Over s.encoding) :
    s.Leads (checkIncremental m f bound l exactly s).2 := by
  obtain ⟨hto, hdescribes⟩ := path_describes wf hm
  exact hto.trans (search_spec (attackOnward_attacks m) f bound l exactly hto.wf
    (hm.of_le wf.encoding hto.grows) hdescribes).1

end Encoder

end Lasso
