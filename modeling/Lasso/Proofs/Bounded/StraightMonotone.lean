import Lasso.Proofs.Bounded.StraightPath

/-! # Longer paths without a loop

Nothing that holds by a bound is lost when the bound is raised: what lies beyond the old bound was
taken to be false everywhere, and negations stand above atomic propositions only.
-/

namespace Lasso

set_option autoImplicit false

namespace Encoder

open Encoding

theorem straightValue_eventually_iff {p : Int64 → Expr → Bool} {k n : Nat} (hk : k < 2 ^ 63)
    (hn : n < 2 ^ 63) (hle : n ≤ k) {f : Formula} :
    straightValue p (.ofNat k) (.unary .eventually f) (.ofNat n) ↔
      ∃ m < k + 1, n ≤ m ∧ straightValue p (.ofNat k) f (.ofNat m) := by
  simp only [straightValue, decide_gt_ofNat hk hn hle, Bool.not_false, Bool.true_and]
  rw [timesUpTo_ofNat hn hk, List.any_eq_true]
  constructor
  · rintro ⟨t, ht, hval⟩
    obtain ⟨m, hm, rfl⟩ := List.mem_map.1 ht
    rw [List.mem_range'_1] at hm
    exact ⟨m, by omega, hm.1, hval⟩
  · rintro ⟨m, hm, hnm, hval⟩
    have hrange : m ∈ List.range' n (k + 1 - n) := by
      rw [List.mem_range'_1]
      omega
    exact ⟨.ofNat m, List.mem_map_of_mem hrange, hval⟩

theorem straightValue_mono {p : Int64 → Expr → Bool} {k k' : Nat} (hkk' : k ≤ k')
    (hk' : k' + 1 < 2 ^ 63) {f : Formula} (hnormal : f.isNormal) (hf : f.isFuture) {n : Nat}
    (hn : n < 2 ^ 63) (h : straightValue p (.ofNat k) f (.ofNat n)) :
    straightValue p (.ofNat k') f (.ofNat n) := by
  -- A position that holds is one of the shorter path, so that it is one of the longer path, and
  -- what it is made of is the same there.
  have hk : k < 2 ^ 63 := by omega
  have hlt : k' < 2 ^ 63 := by omega
  induction f generalizing n with
  | atom e =>
    have hle := le_of_straightValue hk hn h
    simp only [straightValue, decide_gt_ofNat hk hn hle] at h
    simp only [straightValue, decide_gt_ofNat hlt hn (hle.trans hkk')]
    exact h
  | unary op f ih =>
    have hle := le_of_straightValue hk hn h
    have hle' : n ≤ k' := hle.trans hkk'
    have hgt := decide_gt_ofNat hk hn hle
    have hgt' := decide_gt_ofNat hlt hn hle'
    simp only [Formula.isFuture, Bool.and_eq_true] at hf
    simp only [Formula.isNormal, Bool.and_eq_true] at hnormal
    have ih := @ih hnormal.2 hf.2
    cases op with
    | not =>
      obtain ⟨e, rfl⟩ := Formula.exists_eq_atom hnormal.1 hf.2
      simp only [straightValue, hgt] at h
      simp only [straightValue, hgt']
      exact h
    | next =>
      have hsucc : Int64.ofNat n + 1 = Int64.ofNat (n + 1) := (Int64.ofNat_add n 1).symm
      simp only [straightValue, hgt, hsucc, Bool.not_false, Bool.true_and] at h
      simp only [straightValue, hgt', hsucc, Bool.not_false, Bool.true_and]
      exact ih (by omega) h
    | globally =>
      simp only [straightValue, Bool.and_false] at h
      cases h
    | eventually =>
      obtain ⟨m, hm, hnm, hval⟩ := (straightValue_eventually_iff hk hn hle).1 h
      apply (straightValue_eventually_iff hlt hn hle').2
      exact ⟨m, by omega, hnm, ih (by omega) hval⟩
    | previous | once | historically => cases hf.1
  | binary op f g ihf ihg =>
    have hle := le_of_straightValue hk hn h
    have hle' : n ≤ k' := hle.trans hkk'
    have hgt := decide_gt_ofNat hk hn hle
    have hgt' := decide_gt_ofNat hlt hn hle'
    simp only [Formula.isFuture, Bool.and_eq_true] at hf
    simp only [Formula.isNormal, Bool.and_eq_true] at hnormal
    have ihf := @ihf hnormal.2.1 hf.2.1
    have ihg := @ihg hnormal.2.2 hf.2.2
    cases op with
    | and =>
      simp only [straightValue, hgt, Bool.not_false, Bool.true_and] at h
      simp only [straightValue, hgt', Bool.not_false, Bool.true_and]
      obtain ⟨hleft, hright⟩ := Bool.and_eq_true_iff.1 h
      exact Bool.and_eq_true_iff.2 ⟨ihf hn hleft, ihg hn hright⟩
    | or =>
      simp only [straightValue, hgt, Bool.not_false, Bool.true_and] at h
      simp only [straightValue, hgt', Bool.not_false, Bool.true_and]
      exact (Bool.or_eq_true _ _).to_iff.2 (((Bool.or_eq_true _ _).to_iff.1 h).imp (ihf hn) (ihg hn))
    | untl =>
      obtain ⟨m, hm, hnm, hgoal, hwait⟩ := (straightValue_untl_iff hk hn hle).1 h
      apply (straightValue_untl_iff hlt hn hle').2
      refine ⟨m, by omega, hnm, ihg (by omega) hgoal, fun j hj hjm => ?_⟩
      exact ihf (by omega) (hwait j hj hjm)
    | releases =>
      obtain ⟨m, hm, hnm, ⟨hgoal, hwait⟩, hbefore⟩ := (straightValue_releases_iff hk hn hle).1 h
      apply (straightValue_releases_iff hlt hn hle').2
      refine ⟨m, by omega, hnm, ⟨ihg (by omega) hgoal, ihf (by omega) hwait⟩, fun j hj hjm => ?_⟩
      exact ihg (by omega) (hbefore j hj hjm)
    | since => cases hf.1
    | xor | implies | iff | reserved => cases hnormal.1

section

variable {m : Machine} {f : Formula} {s s' u : Encoder}

theorem straight_ok_of_isFuture (wf : s.WellFormed) (hf : f.isFuture)
    (hatoms : ∀ x ∈ f.atoms, s.accepts x) {t k o : Int64} (ht : 0 ≤ t) (hk : 0 ≤ k) (ho : 0 ≤ o) :
    (straight f t k o s).1.error? = none := by
  have hargs : straightArgs t k o := by
    simp only [straightArgs, decide_eq_false (Int64.not_lt.2 ht),
      decide_eq_false (Int64.not_lt.2 hk), decide_eq_false (Int64.not_lt.2 ho)]
    rfl
  apply (straight_meets f t k o s wf).succeeds.2
  exact Bool.and_eq_true_iff.2 ⟨hargs, straightOk_of_isFuture hf hatoms k t⟩

theorem straight_eval_of_uses [Solver] (wf : s.WellFormed) (hm : m.Over s.encoding) {t k o : Int64}
    (hok : (straight f t k o s).1.error? = none) (huses : Uses m (straight f t k o s).2 u)
    {ρ : Assignment} {V : View} (hV : u.encoding.Agrees ρ V) :
    u.encoding.graph.eval ρ (straight f t k o s).1.expr =
      straightValue (u.encoding.atoms.onPath o V) k f t := by
  have hmeets := straight_meets f t k o s wf
  have wf' := hmeets.evolves.wf
  obtain ⟨-, hle⟩ := huses.grows wf' (hm.of_le wf.encoding hmeets.evolves.grows)
  have hdenotes := hmeets.means hok _ (u.encoding.interprets_atoms.of_le hle)
  exact (hdenotes.of_le wf'.encoding hle).eval ρ V hV

theorem Uses.accepts [Solver] (huses : Uses m s s') (wf : s.WellFormed) (hm : m.Over s.encoding)
    {x : Expr} (hx : s.accepts x) : s'.accepts x :=
  (accepts_of_vars (huses.grows wf hm).2.vars x hx).1

end

/-- A normal formula about the future whose atomic propositions are conditions is encoded with two
bounds, in either order and whatever else the encoder is used for.  Every assignment under which it
holds by the first bound is one under which it holds by the second, if that is not smaller. -/
theorem straight_eval_mono [Solver] {m : Machine} {e : Encoding} {table : Table}
    {s s₁ s₂ u : Encoder} (hbuilt : m.Built e) (huses : Uses m (fresh e table) s) {f : Formula}
    (hnormal : f.isNormal) (hf : f.isFuture)
    (hatoms : ∀ x ∈ f.atoms, ((condition false x).run s.encoding).1.isOk)
    (t : Int64) {k k' o : Int64} (hkk' : k ≤ k') (hbound : o.toInt + k'.toInt < 2 ^ 63 - 1)
    (h₁ : Uses m s s₁) (h₂ : Uses m s s₂) (hu₁ : Uses m (straight f t k o s₁).2 u)
    (hu₂ : Uses m (straight f t k' o s₂).2 u) :
    (0 ≤ t → 0 ≤ k → 0 ≤ o → (straight f t k o s₁).1.error? = none ∧
      (straight f t k' o s₂).1.error? = none) ∧
    ∀ ρ, u.encoding.graph.eval ρ (straight f t k o s₁).1.expr = true →
      u.encoding.graph.eval ρ (straight f t k' o s₂).1.expr = true := by
  obtain ⟨wf, hm⟩ := huses.wellFormed hbuilt.wellFormed.1 hbuilt.wellFormed.2
  have hover : ∀ {s' : Encoder}, Uses m s s' → s'.WellFormed ∧ m.Over s'.encoding := fun h =>
    Uses.wellFormed (huses.trans h) hbuilt.wellFormed.1 hbuilt.wellFormed.2
  obtain ⟨wf₁, hm₁⟩ := hover h₁
  obtain ⟨wf₂, hm₂⟩ := hover h₂
  have haccepts : ∀ x ∈ f.atoms, s.accepts x := fun x hx =>
    (condition_isOk_iff wf.encoding).1 (hatoms x hx)
  have hok : 0 ≤ t → 0 ≤ k → 0 ≤ o → (straight f t k o s₁).1.error? = none ∧
      (straight f t k' o s₂).1.error? = none := by
    intro ht hk ho
    constructor
    · exact straight_ok_of_isFuture wf₁ hf (fun x hx => h₁.accepts wf hm (haccepts x hx)) ht hk ho
    · exact straight_ok_of_isFuture wf₂ hf (fun x hx => h₂.accepts wf hm (haccepts x hx)) ht
        (Int64.le_trans hk hkk') ho
  refine ⟨hok, fun ρ heval => ?_⟩
  have hmeets := straight_meets f t k o s₁ wf₁
  obtain ⟨wfu, hle⟩ := hu₁.grows hmeets.evolves.wf (hm₁.of_le wf₁.encoding hmeets.evolves.grows)
  obtain ⟨ht, hk, ho⟩ : 0 ≤ t ∧ 0 ≤ k ∧ 0 ≤ o := by
    by_contra hargs
    rw [Graph.eval_eq_of_le (graph_le hle) ρ hmeets.mem, straight_eval_of_not_args hargs] at heval
    cases heval
  obtain ⟨hok₁, hok₂⟩ := hok ht hk ho
  have hV := wfu.encoding.agrees_viewOf ρ
  rw [straight_eval_of_uses wf₁ hm₁ hok₁ hu₁ hV] at heval
  rw [straight_eval_of_uses wf₂ hm₂ hok₂ hu₂ hV]
  obtain ⟨n, hn, rfl⟩ := exists_ofNat ht
  obtain ⟨b, hb, rfl⟩ := exists_ofNat hk
  obtain ⟨b', hb', rfl⟩ := exists_ofNat (Int64.le_trans hk hkk')
  have hoffset : 0 ≤ o.toInt := Int64.le_iff_toInt_le.1 ho
  rw [Int64.toInt_ofNat_of_lt hb'] at hbound
  rw [Int64.ofNat_le_iff_le hb hb'] at hkk'
  exact straightValue_mono hkk' (by omega) hnormal hf hn heval

/-- A path on which a release comes in time is made longer. -/
theorem straight_eval_mono_release :
    let f : Formula := .binary .releases (.unary .next (.atom (.symbol () "p")))
      (.unary .not (.atom (.symbol () "q")))
    let r := straight f 1 4 2 (fresh pairEncoding {})
    let r' := straight f 1 7 2 r.2
    (r.1.error? = none ∧ r'.1.error? = none) ∧
      (∀ ρ, r'.2.encoding.graph.eval ρ r.1.expr = true →
        r'.2.encoding.graph.eval ρ r'.1.expr = true) ∧
      ∃ ρ, r'.2.encoding.graph.eval ρ r.1.expr = true := by
  intro f r r'
  have haccepts : ∀ x ∈ [(.symbol () "p" : Expr), .symbol () "q"],
      pairEncoding.accepts false x := by decide
  have hatoms : ∀ x ∈ f.atoms, ((condition false x).run pairEncoding).1.isOk := fun x hx =>
    (condition_isOk_iff built_pairEncoding.wellFormed.1).2 (haccepts x hx)
  have hfirst : Uses {} (fresh pairEncoding {}) r.2 := .single (.straight f 1 4 2)
  have hsecond : Uses {} r.2 r'.2 := .single (.straight f 1 7 2)
  obtain ⟨hok, hmono⟩ := straight_eval_mono (s := fresh pairEncoding {}) built_pairEncoding .refl
    (f := f) rfl rfl hatoms 1 (k := 4) (o := 2) (by decide) (by decide) .refl hfirst
    hsecond .refl
  refine ⟨hok (by decide) (by decide) (by decide), hmono, ?_⟩
  -- the first variable holds at all times, and the second at none
  let V := View.ofWord fun _ i => i == 0
  have wf := wellFormed_of_entries (s := fresh pairEncoding {}) built_pairEncoding.wellFormed.1 rfl
  have hmeets := straight_meets f 1 4 2 (fresh pairEncoding {}) wf
  have hlater := straight_meets f 1 7 2 r.2 hmeets.evolves.wf
  have hmeans := hlater.evolves.means hmeets.evolves.wf
    (hmeets.means (hok (by decide) (by decide) (by decide)).1)
  have hinterprets := pairEncoding.interprets_atoms.of_vars
    (hlater.evolves.vars.trans hmeets.evolves.vars)
  have hV := r'.2.encoding.agrees_assign V
  exact ⟨_, ((hmeans _ hinterprets).eval _ V hV).trans rfl⟩

end Encoder

end Lasso
