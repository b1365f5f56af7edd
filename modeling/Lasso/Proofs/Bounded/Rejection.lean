import Mathlib.Data.Nat.Find
import Lasso.Proofs.Bounded.Leaves
import Lasso.Proofs.Bounded.ShortestCounterexample

/-! # Checks of formulas with rejected propositions

An atomic proposition is converted when an encoding reaches it, and not before.  A check fails at
the first length at which the violation reaches something that is not accepted, unless there is a
counterexample before.
-/

namespace Lasso

set_option autoImplicit false

namespace Encoder

open Encoding

/-- What the violation of a formula reaches on the paths of a length, for all loops or for none.
With fairness obligations, nothing is asked of the paths without a loop. -/
def reached (m : Machine) (f : Formula) (l : Loop) (k : Nat) : List Formula :=
  (if m.fairness.isEmpty then f.negation.straightLeaves k else []) ++
    if l.isAll && decide (0 < k) then f.negation.loopingLeaves k else []

theorem straightArgs_zero {k : Nat} (hk : k < 2 ^ 63) : straightArgs 0 (.ofNat k) 0 = true := by
  rw [straightArgs, decide_ofNat_neg hk]
  rfl

theorem onStraightOk_iff {m : Machine} {k : Nat} (hk : k + 1 < 2 ^ 63) (f : Formula)
    (acc : Expr → Bool) :
    onStraightOk m f (.ofNat k) 0 true acc ↔
      ∀ x ∈ (if m.fairness.isEmpty then f.straightLeaves k else []), x.isAccepted acc := by
  have hok := @straightOk_iff acc k hk f 0 (Nat.zero_le k)
  rw [onStraightOk, straightArgs_zero (by omega)]
  cases m.fairness.isEmpty with
  | true => exact hok
  | false => exact iff_of_true rfl (List.forall_mem_nil _)

theorem all_onLoopOk_iff {k : Nat} (hk : k + 1 < 2 ^ 63) (f : Formula) (acc : Expr → Bool) :
    ((times 0 (.ofNat k)).all fun l => onLoopOk f (.ofNat k) 0 true acc ⟨l⟩) ↔
      ∀ x ∈ (if 0 < k then f.loopingLeaves k else []), x.isAccepted acc := by
  have hloop : ∀ j < k, onLoopOk f (.ofNat k) 0 true acc ⟨.ofNat j⟩ =
      loopingOk acc (.ofNat k) ⟨.ofNat j⟩ f 0 := fun j hj =>
    onLoopOk_eq hj (by omega) (Loop.isSingle_ofNat (by omega)) f acc
  rw [times_zero (by omega), List.all_map, List.all_eq_true]
  simp only [List.mem_range'_1, Function.comp, Nat.zero_add, Nat.zero_le, true_and]
  split
  · rename_i hpos
    have hzero := @loopingOk_zero_iff acc k (by omega) f 0 hpos
    constructor
    · intro hall
      have hfirst := hall 0 hpos
      rw [hloop 0 hpos] at hfirst
      exact hzero.1 hfirst
    · intro hall j hj
      rw [hloop j hj]
      rcases Nat.eq_zero_or_pos j with rfl | hj'
      · exact hzero.2 hall
      · exact loopingOk_of_loopingLeaves (by omega) hall _ _ _
  · exact iff_of_true (fun j hj => by omega) (List.forall_mem_nil _)

theorem checkSemantics_all {k : Nat} (hk : k < 2 ^ 63) :
    (checkSemantics (.ofNat k) .all 0).isOk := by
  rw [checkSemantics, Loop.check_of_not_isSingle hk rfl]
  rfl

theorem violationOk_iff {m : Machine} {l : Loop} (hl : l = .all ∨ l = .none) {k : Nat}
    (hk : k + 1 < 2 ^ 63) (f : Formula) (acc : Expr → Bool) :
    violationOk m f (.ofNat k) l acc ↔ ∀ x ∈ reached m f l k, x.isAccepted acc := by
  rw [reached, List.forall_mem_append, ← onStraightOk_iff hk]
  rcases hl with rfl | rfl
  · rw [violationOk_all, checkSemantics_all (by omega), Bool.true_and, onAllOk, Bool.and_eq_true,
      all_onLoopOk_iff hk, show Loop.all.isAll = true from decide_eq_true rfl]
    simp only [Bool.true_and, decide_eq_true_iff]
  · rw [violationOk_none, checkSemantics_none (by omega), Bool.true_and]
    exact (and_iff_left (List.forall_mem_nil _)).symm

/-- A search cannot answer at a length: the violation has no encoding, or the states of the paths
cannot be counted. -/
def Blocked (m : Machine) (f : Formula) (l : Loop) (s : Encoder) (n : Nat) : Prop :=
  ¬ violationOk m f (.ofNat n) l s.accepts ∨ n + 1 = 2 ^ 63

/-- There is a counterexample at a length. -/
def Refuted (m : Machine) (f : Formula) (l : Loop) (s : Encoder) (n : Nat) : Prop :=
  violationOk m f (.ofNat n) l s.accepts ∧ Violable m f l s n

section

variable {σ : Type} {m : Machine} {attack : Attack σ} {Inv : Nat → σ → Encoder → Prop}
  (hattack : Attacks m attack Inv) (f : Formula) (bound : Int64) (l : Loop)

include hattack

theorem searchFrom_outcome (count : Nat) {n : Nat} (hcount : n + count ≤ 2 ^ 63) {u : σ}
    {s : Encoder} (wf : s.WellFormed) (hm : m.Over s.encoding) (hinv : Inv n u s)
    (herror : (searchFrom m attack f bound l count (.ofNat n) u s).1.error? ≠ none) :
    (searchFrom m attack f bound l count (.ofNat n) u s).1.outcome = .unknown := by
  induction count generalizing n u s with
  | zero =>
    rw [searchFrom] at herror ⊢
    split at herror
    · rename_i hle
      rw [if_pos hle]
      rfl
    · exact absurd rfl herror
  | succ count ih =>
    cases searchFrom_round hattack f bound l count (by omega) wf hm hinv with
    | skipped _ hr =>
      rw [hr] at herror ⊢
      exact ih (n := n + 1) (by omega) wf hm
        (hattack.later wf hm hinv (Nat.le_succ n) (.refl wf)) herror
    | failed _ _ _ hr =>
      rw [hr]
      rfl
    | passed _ _ _ hto hinv' hr =>
      rw [hr] at herror ⊢
      exact ih (n := n + 1) (by omega) hto.wf (hm.of_le wf.encoding hto.grows) hinv' herror
    | found _ _ _ _ _ _ hr =>
      rw [hr] at herror
      exact absurd rfl herror
    | overrun _ _ _ _ _ hr =>
      rw [hr]
      rfl

/-- A search fails if it is blocked before it finds a counterexample.  The length after the last is
negative, so that the search does not end there. -/
theorem searchFrom_fails_iff (hl : l.isSingle = false) (count : Nat) {n : Nat}
    (hcount : n + count ≤ 2 ^ 63) (hbound : Int64.ofNat (n + count) ≤ bound ↔ n + count = 2 ^ 63)
    {u : σ} {s : Encoder} (wf : s.WellFormed) (hm : m.Over s.encoding) (hinv : Inv n u s) :
    (searchFrom m attack f bound l count (.ofNat n) u s).1.error? ≠ none ↔
      (count = 0 ∧ n = 2 ^ 63) ∨ ∃ i, n ≤ i ∧ i < n + count ∧ Blocked m f l s i ∧
        ∀ j, n ≤ j → j < i → ¬ Refuted m f l s j := by
  -- one round at a time: a length that is passed is neither blocked nor refuted
  induction count generalizing n u s with
  | zero =>
    rw [searchFrom]
    split
    · rename_i hle
      exact iff_of_true (Option.some_ne_none _) (.inl ⟨rfl, hbound.1 hle⟩)
    · rename_i hle
      refine ⟨fun h => absurd rfl h, ?_⟩
      rintro (⟨-, rfl⟩ | ⟨i, hni, hi, -⟩)
      · exact absurd (hbound.2 rfl) hle
      · omega
  | succ count ih =>
    have hfeasible : feasible l (.ofNat n) := by
      rw [feasible, hl]
      rfl
    have hok := (violation_encodes f (.ofNat n) l wf hm).succeeds
    have hlater : n + (count + 1) = n + 1 + count := by omega
    cases searchFrom_round hattack f bound l count (by omega) wf hm hinv with
    | skipped hskip => exact absurd hfeasible hskip
    | failed _ herr _ hr =>
      rw [hr]
      have hblocked : Blocked m f l s n := by
        refine .inl fun h => ?_
        cases herr.symm.trans (hok.2 h)
      exact iff_of_true (Option.some_ne_none _)
        (.inr ⟨n, Nat.le_refl n, by omega, hblocked, fun j hj hjn => by omega⟩)
    | passed _ herr hno hto hinv' hr =>
      rw [hlater] at hcount hbound ⊢
      rw [hr, ih hcount hbound hto.wf (hm.of_le wf.encoding hto.grows) hinv']
      simp only [Blocked, Refuted, hto.accepts_eq, violable_of_leads wf hm hto]
      constructor
      · rintro (⟨-, hmax⟩ | ⟨i, hni, hi, hblocked, hnone⟩)
        · exact .inr ⟨n, Nat.le_refl n, by omega, .inr hmax, fun j hj hjn => by omega⟩
        · refine .inr ⟨i, by omega, hi, hblocked, fun j hj hji => ?_⟩
          rcases Nat.eq_or_lt_of_le hj with rfl | hlt
          · exact fun h => hno h.2
          · exact hnone j hlt hji
      · rintro (⟨hzero, -⟩ | ⟨i, hni, hi, hblocked, hnone⟩)
        · cases hzero
        · rcases Nat.eq_or_lt_of_le hni with rfl | hlt
          · have hmax := hblocked.resolve_left fun h => h (hok.1 herr)
            exact .inl ⟨by omega, hmax⟩
          · exact .inr ⟨i, hlt, hi, hblocked, fun j hj => hnone j (by omega)⟩
    | found _ herr hviolable _ hn _ hr =>
      rw [hr]
      refine ⟨fun h => absurd rfl h, ?_⟩
      rintro (⟨hzero, -⟩ | ⟨i, hni, hi, hblocked, hnone⟩)
      · cases hzero
      · rcases Nat.eq_or_lt_of_le hni with rfl | hlt
        · rcases hblocked with hnot | hmax
          · exact absurd (hok.1 herr) hnot
          · omega
        · exact absurd ⟨hok.1 herr, hviolable⟩ (hnone n (Nat.le_refl n) hlt)
    | overrun _ _ _ _ hn hr =>
      rw [hr]
      exact iff_of_true (Option.some_ne_none _)
        (.inr ⟨n, Nat.le_refl n, by omega, .inr hn, fun j hj hjn => by omega⟩)

end

theorem check_outcome [Solver] {m : Machine} (f : Formula) (bound : Int64) (l : Loop)
    (exactly : Bool) {s : Encoder} (wf : s.WellFormed) (hm : m.Over s.encoding)
    (herror : (check m f bound l exactly s).1.error? ≠ none) :
    (check m f bound l exactly s).1.outcome = .unknown := by
  unfold check search at herror ⊢
  cases hcheck : l.check bound with
  | error e => rfl
  | ok _ =>
    obtain ⟨b, hb, rfl⟩ := Loop.exists_ofNat_of_check hcheck
    rw [hcheck] at herror
    dsimp only at herror ⊢
    split
    · rfl
    · rename_i hpast
      rw [if_neg hpast] at herror
      cases exactly with
      | true =>
        exact searchFrom_outcome (attackAfresh_attacks m) f _ l 1 (n := b) hb wf hm trivial herror
      | false =>
        have hcount : 0 + ((Int64.ofNat b).toInt + 1).toNat ≤ 2 ^ 63 := by
          rw [Int64.toInt_ofNat_of_lt hb]
          omega
        exact searchFrom_outcome (attackAfresh_attacks m) f _ l _ (n := 0) hcount wf hm trivial
          herror

/-- Something that has no encoding: an atomic proposition that is no condition, or an operator that
is not about the future. -/
def Unencodable (e : Encoding) : Formula → Prop
  | .atom x => ∃ err, ((condition false x).run e).1 = .error err
  | _ => True

theorem unencodable_iff {s : Encoder} (wf : s.WellFormed) (x : Formula) :
    Unencodable s.encoding x ↔ x.isAccepted s.accepts = false := by
  cases x with
  | atom x =>
    rw [Formula.isAccepted, accepts, ← Bool.not_eq_true, ← condition_isOk_iff wf.encoding]
    cases h : ((condition false x).run s.encoding).1 with
    | ok l =>
      constructor
      · rintro ⟨_, herr⟩
        cases h.symm.trans herr
      · exact fun hnot => absurd rfl hnot
    | error err => exact ⟨fun _ => Bool.false_ne_true, fun _ => ⟨err, h⟩⟩
  | unary | binary => exact ⟨fun _ => rfl, fun _ => trivial⟩

section

variable {m : Machine} {s : Encoder} (wf : s.WellFormed) (hm : m.Over s.encoding) {f : Formula}
  {l : Loop} (hl : l = .all ∨ l = .none)

include wf hl

theorem blocked_iff {k : Nat} (hk : k < 2 ^ 63) :
    Blocked m f l s k ↔
      (∃ x ∈ reached m f l k, Unencodable s.encoding x) ∨ Int64.ofNat k = Int64.maxValue := by
  rw [Blocked, ofNat_eq_maxValue_iff hk]
  by_cases hmax : k + 1 = 2 ^ 63
  · simp only [hmax, or_true]
  · rw [violationOk_iff hl (by omega)]
    simp only [hmax, or_false, unencodable_iff wf, not_forall, exists_prop, Bool.not_eq_true]

include hm

theorem check_fails_iff [Solver] (hpast : f.isPast = false) {b : Nat} (hb : b < 2 ^ 63)
    (exactly : Bool) :
    (check m f (.ofNat b) l exactly s).1.error? ≠ none ↔
      ∃ i, (if exactly then b else 0) ≤ i ∧ i < b + 1 ∧ Blocked m f l s i ∧
        ∀ j, (if exactly then b else 0) ≤ j → j < i → ¬ Refuted m f l s j := by
  have hsingle : l.isSingle = false := by
    rcases hl with rfl | rfl <;> rfl
  have hcheck := Loop.check_of_not_isSingle hb hsingle
  have hbound : Int64.ofNat (b + 1) ≤ .ofNat b ↔ b + 1 = 2 ^ 63 := by
    by_cases hmax : b + 1 = 2 ^ 63
    · rw [hmax]
      exact iff_of_true (Int64.minValue_le _) rfl
    · rw [Int64.ofNat_le_iff_le (by omega) hb]
      omega
  have hfails := fun count n hcount h => searchFrom_fails_iff (attackAfresh_attacks m) f (.ofNat b)
    l hsingle count (n := n) (u := ()) hcount h wf hm trivial
  rw [check, search, hcheck, hpast]
  dsimp only
  rw [if_neg Bool.false_ne_true]
  cases exactly with
  | true =>
    rw [if_pos rfl, hfails 1 b (by omega) hbound]
    simp
  | false =>
    have hcount : ((Int64.ofNat b).toInt + 1).toNat = b + 1 := by
      rw [Int64.toInt_ofNat_of_lt hb]
      omega
    rw [if_neg Bool.false_ne_true, hcount, show (0 : Int64) = .ofNat 0 from rfl,
      hfails (b + 1) 0 (by omega) (by rwa [Nat.zero_add])]
    simp

theorem refuted_iff {n : Nat} (hn : n < 2 ^ 63) (hok : ¬ Blocked m f l s n) :
    Refuted m f l s n ↔ HasViolation m f l s (.ofNat n) := by
  have hok : violationOk m f (.ofNat n) l s.accepts := not_not.1 (not_or.1 hok).1
  have hfeasible : feasible l (.ofNat n) := by
    rcases hl with rfl | rfl <;> rfl
  rw [hasViolation_iff wf hm hn hok]
  exact ⟨fun h => ⟨hfeasible, h.2⟩, fun h => ⟨hok, h.2⟩⟩

/-- A check fails at a length where something is reached that has no encoding, if there is no
violation before. -/
theorem check_error_iff [Solver] (hpast : f.isPast = false) {b : Nat} (hb : b < 2 ^ 63)
    (exactly : Bool) :
    (check m f (.ofNat b) l exactly s).1.error? ≠ none ↔
      ∃ k, Examined (.ofNat b) exactly k ∧
        ((∃ x ∈ reached m f l k.toNatClampNeg, Unencodable s.encoding x) ∨ k = Int64.maxValue) ∧
        ∀ i, Examined (.ofNat b) exactly i → i < k → ¬ HasViolation m f l s i := by
  have hlast : (if exactly then b else 0) + (if exactly then 1 else b + 1) = b + 1 := by
    split <;> omega
  simp only [examined_iff hb, hlast]
  rw [check_fails_iff wf hm hl hpast hb]
  constructor
  · rintro ⟨i, hi⟩
    -- nothing is blocked before the first length that is
    classical
    have hexists : ∃ i, (if exactly then b else 0) ≤ i ∧ i < b + 1 ∧ Blocked m f l s i :=
      ⟨i, hi.1, hi.2.1, hi.2.2.1⟩
    obtain ⟨hstart, hend, hblocked⟩ := Nat.find_spec hexists
    have hmin : ∀ j, (if exactly then b else 0) ≤ j → j < Nat.find hexists →
        ¬ Blocked m f l s j := fun j hj hlt h => Nat.find_min hexists hlt ⟨hj, by omega, h⟩
    have hle : Nat.find hexists ≤ i := Nat.find_min' hexists ⟨hi.1, hi.2.1, hi.2.2.1⟩
    generalize Nat.find hexists = k at hstart hend hblocked hmin hle
    refine ⟨.ofNat k, ⟨k, rfl, hstart, hend⟩, ?_, ?_⟩
    · rw [Int64.toNatClampNeg_ofNat_of_lt (by omega)]
      exact (blocked_iff wf hl (by omega)).1 hblocked
    · rintro _ ⟨j, rfl, hj, hjb⟩ hlt
      have hjk := (Int64.ofNat_lt_iff_lt (by omega) (by omega)).1 hlt
      rw [← refuted_iff wf hm hl (by omega) (hmin j hj hjk)]
      exact hi.2.2.2 j hj (by omega)
  · rintro ⟨_, ⟨i, rfl, hi, hib⟩, hreached, hno⟩
    rw [Int64.toNatClampNeg_ofNat_of_lt (by omega)] at hreached
    refine ⟨i, hi, hib, (blocked_iff wf hl (by omega)).2 hreached, fun j hj hji hrefuted => ?_⟩
    refine hno (.ofNat j) ⟨j, rfl, hj, by omega⟩
      ((Int64.ofNat_lt_iff_lt (by omega) (by omega)).2 hji) ?_
    exact (refuted_iff wf hm hl (by omega)
      fun h => h.elim (· hrefuted.1) fun hmax => by omega).1 hrefuted

end

/-- Checks of a formula without operators about the past, one of whose atomic propositions is
rejected, for all loops or for none.  Such a check fails, and leaves the outcome open, if at some
length it reaches something that has no encoding, and there is no violation at the lengths before.
If something of this kind is reached at the bound, the check does not answer that there is no
counterexample, and if only the bound is examined, it fails.  With all loops, and a bound of two at
least, it is reached. -/
theorem check_fails_where_rejected [Solver] {m : Machine} {e : Encoding} {table : Table}
    {s : Encoder} (hbuilt : m.Built e) (huses : Uses m (fresh e table) s) {f : Formula}
    (hpast : f.isPast = false) {x : Expr} (hx : x ∈ f.atoms)
    (hrejected : ∃ err, ((condition false x).run s.encoding).1 = .error err) {bound : Int64}
    (hbound : 1 ≤ bound) {l : Loop} (hl : l = .all ∨ l = .none) (exactly : Bool) :
    let r := (check m f bound l exactly s).1
    (r.error? ≠ none ↔ ∃ k, Examined bound exactly k ∧
      ((∃ y ∈ reached m f l k.toNatClampNeg, Unencodable s.encoding y) ∨ k = Int64.maxValue) ∧
      ∀ i, Examined bound exactly i → i < k → ¬ HasViolation m f l s i) ∧
    (r.error? ≠ none → r.outcome = .unknown) ∧
    ((∃ y ∈ reached m f l bound.toNatClampNeg, Unencodable s.encoding y) →
      r.outcome ≠ .noCounterexample ∧ (exactly = true → r.error? ≠ none)) ∧
    (l = .all → 2 ≤ bound →
      ∃ y ∈ reached m f l bound.toNatClampNeg, Unencodable s.encoding y) := by
  intro r
  obtain ⟨wf, hm⟩ := huses.wellFormed hbuilt.wellFormed.1 hbuilt.wellFormed.2
  obtain ⟨b, hb, rfl⟩ := exists_ofNat (Int64.le_trans (by decide : (0 : Int64) ≤ 1) hbound)
  have hiff := check_error_iff wf hm hl hpast hb exactly
  have hunknown := check_outcome f (.ofNat b) l exactly wf hm
  have hexamined : Examined (.ofNat b) exactly (.ofNat b) := by
    cases exactly with
    | true => rfl
    | false => exact ⟨Int64.le_trans (by decide) hbound, Int64.le_refl _⟩
  refine ⟨hiff, hunknown, fun hreached => ⟨fun hnone => ?_, fun hexactly => ?_⟩,
    fun hall htwo => ?_⟩
  · -- without an error no length has a violation, so that nothing keeps the bound from failing
    have herror : (check m f (.ofNat b) l exactly s).1.error? = none := by
      by_contra h
      cases (hunknown h).symm.trans hnone
    obtain ⟨b', j, hb', hbb', hreports⟩ := (check_spec f (.ofNat b) l exactly wf hm).2 herror
    obtain rfl := (ofNat_inj hb hb').1 hbb'
    have hcount : (if exactly then b else 0) + (if exactly then 1 else b + 1) ≤ 2 ^ 63 := by
      split <;> omega
    have hno := (hreports.noCounterexample_iff wf hm hcount (examined_iff hb exactly)).1 hnone
    exact hiff.2 ⟨_, hexamined, .inl hreached, fun i hi _ => hno i hi⟩ herror
  · refine hiff.2 ⟨_, hexamined, .inl hreached, fun i hi hlt => ?_⟩
    rw [Examined, if_pos hexactly] at hi
    exact absurd hlt (hi ▸ Int64.lt_irrefl)
  · have htwo : 2 ≤ b := (@Int64.ofNat_le_iff_le 2 b (by omega) hb).1 htwo
    have hacc := (unencodable_iff wf (.atom x)).1 hrejected
    obtain ⟨y, hy, hyrejected⟩ := Formula.exists_mem_loopingLeaves (k := b) (by omega) hx hacc true
    rw [Int64.toNatClampNeg_ofNat_of_lt hb]
    refine ⟨y, List.mem_append_right _ ?_, (unencodable_iff wf y).2 hyrejected⟩
    rw [hall, if_pos (by simp only [Bool.and_eq_true]; exact ⟨rfl, decide_eq_true (by omega)⟩)]
    exact hy

def soleEncoding : Encoding := (Encoding.declare false "a" ∅).2

theorem built_soleEncoding : ({} : Machine).Built soleEncoding :=
  Machine.Built.empty.declare false "a"

def eventuallyUnknown : Formula := .unary .eventually (.atom (.symbol () "b"))

theorem unknown_rejected :
    ∃ err, ((condition false (.symbol () "b" : Expr)).run soleEncoding).1 = .error err := by
  have wf : (fresh soleEncoding {}).WellFormed :=
    wellFormed_of_entries built_soleEncoding.wellFormed.1 rfl
  exact (unencodable_iff wf (.atom (.symbol () "b"))).2 (by decide)

/-- With all loops the proposition is reached. -/
theorem check_fails_where_rejected_eventually :
    let r := (check {} eventuallyUnknown 2 .all true (fresh soleEncoding {})).1
    r.error? ≠ none ∧ r.outcome = .unknown := by
  intro r
  have huses : Uses {} (fresh soleEncoding {}) (fresh soleEncoding {}) := .refl
  have hbound : (1 : Int64) ≤ 2 := by decide
  obtain ⟨-, hunknown, hfails, hreached⟩ := check_fails_where_rejected built_soleEncoding huses
    (f := eventuallyUnknown) rfl List.mem_cons_self unknown_rejected hbound (.inl rfl) true
  have herror := (hfails (hreached rfl (by decide))).2 rfl
  exact ⟨herror, hunknown herror⟩

/-- Without a loop nothing is asked beneath what holds globally, so the negation of this formula
reaches nothing: there is no counterexample to it, and no complaint. -/
theorem check_passes_over_rejected :
    eventuallyUnknown.isPast = false ∧ ({} : Machine).Built soleEncoding ∧
      (∃ x ∈ eventuallyUnknown.atoms,
        ∃ err, ((condition false x).run soleEncoding).1 = .error err) ∧
      let r := (check {} eventuallyUnknown 1 .none false (fresh soleEncoding {})).1
      r.error? = none ∧ r.outcome = .noCounterexample := by
  have wf : (fresh soleEncoding {}).WellFormed :=
    wellFormed_of_entries built_soleEncoding.wellFormed.1 rfl
  have hm : ({} : Machine).Over (fresh soleEncoding {}).encoding := built_soleEncoding.wellFormed.2
  have hreached : ∀ k, reached {} eventuallyUnknown .none k = [] := fun _ => rfl
  refine ⟨rfl, built_soleEncoding, ⟨_, List.mem_cons_self, unknown_rejected⟩, ?_⟩
  intro r
  have herror : r.error? = none := by
    by_contra h
    obtain ⟨k, hk, hblocked, -⟩ :=
      (check_error_iff wf hm (.inr rfl) (b := 1) rfl (by decide) false).1 h
    rw [hreached] at hblocked
    rcases hblocked with ⟨y, hy, -⟩ | rfl
    · cases hy
    · exact absurd hk.2 (by decide)
  refine ⟨herror, ?_⟩
  obtain ⟨b, j, hb, hbb, hreports⟩ := (check_spec eventuallyUnknown 1 .none false wf hm).2 herror
  obtain rfl := (@ofNat_inj 1 b (by decide) hb).1 hbb
  rcases hreports.answer with ⟨-, hnone, -⟩ | ⟨-, -, -, -, -, -, ⟨V, -, hval⟩, -⟩
  · exact hnone
  · have hnegation : eventuallyUnknown.negation =
        .unary .globally (.unary .not (.atom (.symbol () "b"))) := rfl
    rw [violationValue_none, onStraightValue, hnegation] at hval
    simp only [straightValue, Bool.and_false, Bool.false_eq_true] at hval

end Encoder

end Lasso
