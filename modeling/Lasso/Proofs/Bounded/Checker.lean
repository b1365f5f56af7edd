import Lasso.Proofs.Bounded.Witness

/-! # Searching for counterexamples

A search goes through lengths in order and answers with the first at which the machine has a path
that violates the formula.  The trace of its answer shows such a path and its loop.
-/

namespace Lasso

set_option autoImplicit false

namespace Encoder

open Encoding

/-- Under some view there is a path of a length that violates a formula. -/
def Violable (m : Machine) (f : Formula) (l : Loop) (s : Encoder) (n : Nat) : Prop :=
  ∃ V, m.IsPath s.encoding V.word n ∧
    violationValue m f (.ofNat n) l s.encoding s.encoding.atoms V

/-- A way to look for solutions finds one if and only if there is one.  What it keeps from one
length to the next satisfies an invariant. -/
structure Attacks {σ : Type} (m : Machine) (attack : Attack σ) (Inv : Nat → σ → Encoder → Prop) :
    Prop where
  later : ∀ {n n' : Nat} {u : σ} {s s' : Encoder}, s.WellFormed → m.Over s.encoding →
    Inv n u s → n ≤ n' → s.Leads s' → Inv n' u s'
  leads : ∀ {n : Nat} {u : σ} {s : Encoder} {violated : Lit} {φ : View → Bool}, n < 2 ^ 63 →
    s.WellFormed → m.Over s.encoding → Inv n u s → s.encoding.Denotes violated φ →
    s.Leads (attack (.ofNat n) violated u s).2 ∧
      Inv n (attack (.ofNat n) violated u s).1.2 (attack (.ofNat n) violated u s).2
  fails : ∀ {n : Nat} {u : σ} {s : Encoder} {violated : Lit} {φ : View → Bool}, n < 2 ^ 63 →
    s.WellFormed → m.Over s.encoding → Inv n u s → s.encoding.Denotes violated φ →
    (attack (.ofNat n) violated u s).1.1 = none → ∀ V, m.IsPath s.encoding V.word n → φ V = false
  succeeds : ∀ {n : Nat} {u : σ} {s : Encoder} {violated : Lit} {φ : View → Bool} {ρ : Assignment},
    n < 2 ^ 63 → s.WellFormed → m.Over s.encoding → Inv n u s → s.encoding.Denotes violated φ →
    (attack (.ofNat n) violated u s).1.1 = some ρ →
    ∀ V, (attack (.ofNat n) violated u s).2.encoding.Agrees ρ V →
      m.IsPath s.encoding V.word n ∧ φ V = true

theorem attackAfresh_eq [Solver] (m : Machine) (k : Int64) (violated : Lit) (s : Encoder) :
    attackAfresh m k violated () s =
      (((onEncoding (m.path k.toUInt64) s).2.encoding.graph.solve
        [(onEncoding (m.path k.toUInt64) s).1, violated], ()),
        (onEncoding (m.path k.toUInt64) s).2) := rfl

theorem attackAfresh_spec {m : Machine} {n : Nat} (hn : n < 2 ^ 63) {s : Encoder}
    (wf : s.WellFormed) (hm : m.Over s.encoding) {violated : Lit} {φ : View → Bool}
    (hφ : s.encoding.Denotes violated φ) :
    s.Leads (onEncoding (m.path (Int64.ofNat n).toUInt64) s).2 ∧
      List.Forall₂ (onEncoding (m.path (Int64.ofNat n).toUInt64) s).2.encoding.Denotes
        [(onEncoding (m.path (Int64.ofNat n).toUInt64) s).1, violated]
        [fun V => decide (m.IsPath s.encoding V.word n), φ] := by
  have hnat : (Int64.ofNat n).toUInt64.toNat = n :=
    UInt64.toNat_ofNat_of_lt' (show n < 2 ^ 64 by omega)
  have hpath := Machine.path_builds wf.encoding hm (Int64.ofNat n).toUInt64
  rw [hnat] at hpath
  have hleads := onEncoding_evolves wf hpath (fun _ => False)
  exact ⟨hleads, .cons hpath.denotes (.cons (hφ.of_le wf.encoding hleads.grows) .nil)⟩

theorem attackAfresh_attacks [Solver] (m : Machine) :
    Attacks m (attackAfresh m) (fun _ _ _ => True) where
  later _ _ _ _ _ := trivial
  leads hn wf hm _ hφ := ⟨(attackAfresh_spec hn wf hm hφ).1, trivial⟩
  fails hn wf hm _ hφ hnone V hV := by
    obtain ⟨hleads, hroots⟩ := attackAfresh_spec hn wf hm hφ
    rw [attackAfresh_eq] at hnone
    dsimp only at hnone
    have hno := (solve_eq_none_iff hleads.wf.encoding hroots).1 hnone V
    simp only [List.mem_cons, List.not_mem_nil, or_false, forall_eq_or_imp, forall_eq,
      decide_eq_true_iff, hV, true_and, Bool.not_eq_true] at hno
    exact hno
  succeeds hn wf hm _ hφ hsome V hV := by
    obtain ⟨hleads, hroots⟩ := attackAfresh_spec hn wf hm hφ
    rw [attackAfresh_eq] at hsome hV
    dsimp only at hsome hV
    have hall := (forall_eval_iff hroots hV).1 fun l hl => Graph.eval_of_solve hsome hl
    simp only [List.mem_cons, List.not_mem_nil, or_false, forall_eq_or_imp, forall_eq,
      decide_eq_true_iff] at hall
    exact hall

/-- The trace shows a view of a path that violates a formula on its loop. -/
structure Shows (m : Machine) (f : Formula) (s : Encoder) (n : Nat) (tr : Trace) (V : View) :
    Prop where
  records : tr.Records s.encoding n V
  path : m.IsPath s.encoding V.word n
  loop : tr.loopback = .none ∨ ∃ j < n, tr.loopback = ⟨.ofNat j⟩
  ok : violationOk m f (.ofNat n) tr.loopback s.accepts
  violated : violationValue m f (.ofNat n) tr.loopback s.encoding s.encoding.atoms V

/-- What a search reports, in terms of the first length from `n` on with a counterexample. -/
structure Reports (m : Machine) (f : Formula) (bound : Int64) (l : Loop) (s : Encoder)
    (n count : Nat) (r : CheckResult) (j : Nat) : Prop where
  from_le : n ≤ j
  before : ∀ i, n ≤ i → i < j → feasible l (.ofNat i) →
    violationOk m f (.ofNat i) l s.accepts ∧ ¬ Violable m f l s i
  answer : (j = n + count ∧ r.outcome = .noCounterexample ∧ r.bound = bound) ∨
    (j < n + count ∧ j + 1 < 2 ^ 63 ∧ r.outcome = .counterexample ∧ r.bound = .ofNat j ∧
      feasible l (.ofNat j) ∧ violationOk m f (.ofNat j) l s.accepts ∧ Violable m f l s j ∧
      ∃ tr V, r.trace? = some tr ∧ Shows m f s j tr V)

theorem searchFrom_succ {σ : Type} (m : Machine) (attack : Attack σ) (f : Formula) (bound : Int64)
    (l : Loop) (count : Nat) (k : Int64) (u : σ) (s : Encoder) :
    searchFrom m attack f bound l (count + 1) k u s =
      if !feasible l k then searchFrom m attack f bound l count (k + 1) u s
      else
        match (violation m f k l s).1.error? with
        | some e => (.failure k e, (violation m f k l s).2)
        | none =>
          let a := attack k (violation m f k l s).1.expr u (violation m f k l s).2
          match a.1.1 with
          | none => searchFrom m attack f bound l count (k + 1) a.1.2 a.2
          | some ρ =>
            match (witness m f k l ρ a.2).1 with
            | .error e => (.failure k e, (witness m f k l ρ a.2).2)
            | .ok lb =>
              if k = Int64.maxValue then
                (.overrun k, (witness m f k l ρ a.2).2)
              else
                let t := extract ρ k lb (witness m f k l ρ a.2).2
                ({ outcome := .counterexample, bound := k, trace? := t.1 }, t.2) := by
  rw [searchFrom]
  split
  · rfl
  · rw [bind_apply]
    cases (violation m f k l s).1.error? with
    | some e => rfl
    | none =>
      dsimp only
      rw [bind_apply]
      generalize attack k (violation m f k l s).1.expr u (violation m f k l s).2 = a
      obtain ⟨⟨ρ?, u'⟩, s'⟩ := a
      cases ρ? with
      | none => rfl
      | some ρ =>
        dsimp only
        rw [bind_apply]
        cases (witness m f k l ρ s').1 with
        | error e => rfl
        | ok lb =>
          dsimp only
          split <;> rfl

section

variable {m : Machine} {f : Formula} {bound : Int64} {l : Loop} {s s' : Encoder}
  (wf : s.WellFormed) (hm : m.Over s.encoding) (h : s.Leads s')

include wf hm h

theorem violable_of_leads (n : Nat) : Violable m f l s' n ↔ Violable m f l s n := by
  simp only [Violable, hm.isPath_iff wf.encoding h.grows, violationValue_of_leads wf hm h,
    h.atoms_eq]

theorem Shows.of_leads {n : Nat} {tr : Trace} {V : View} (hshows : Shows m f s' n tr V) :
    Shows m f s n tr V where
  records := hshows.records.of_vars h.vars
  path := (hm.isPath_iff wf.encoding h.grows _ _).1 hshows.path
  loop := hshows.loop
  ok := h.accepts_eq ▸ hshows.ok
  violated := by
    rw [← violationValue_of_leads wf hm h, ← h.atoms_eq]
    exact hshows.violated

theorem Reports.of_leads {n count j : Nat} {r : CheckResult}
    (hreports : Reports m f bound l s' n count r j) : Reports m f bound l s n count r j where
  from_le := hreports.from_le
  before i hi hij hfeasible := by
    rw [← violable_of_leads wf hm h, ← h.accepts_eq]
    exact hreports.before i hi hij hfeasible
  answer := by
    rcases hreports.answer with hnone |
      ⟨hj, hlt, hout, hbound, hfeasible, hok, hviolable, tr, V, htr, hshows⟩
    · exact .inl hnone
    · rw [h.accepts_eq] at hok
      exact .inr ⟨hj, hlt, hout, hbound, hfeasible, hok, (violable_of_leads wf hm h j).1 hviolable,
        tr, V, htr, hshows.of_leads wf hm h⟩

end

theorem Reports.round {m : Machine} {f : Formula} {bound : Int64} {l : Loop} {s : Encoder}
    {n count j : Nat} {r : CheckResult} (h : Reports m f bound l s (n + 1) count r j)
    (hn : feasible l (.ofNat n) →
      violationOk m f (.ofNat n) l s.accepts ∧ ¬ Violable m f l s n) :
    Reports m f bound l s n (count + 1) r j where
  from_le := Nat.le_of_succ_le h.from_le
  before i hi hij hfeasible := by
    rcases Nat.eq_or_lt_of_le hi with rfl | hlt
    · exact hn hfeasible
    · exact h.before i hlt hij hfeasible
  answer := by
    rw [show n + (count + 1) = n + 1 + count by omega]
    exact h.answer

theorem extract_shows {m : Machine} (f : Formula) {n : Nat} (hn : n + 1 < 2 ^ 63) {l lb : Loop}
    {ρ : Assignment} {s : Encoder} (hfeasible : feasible l (.ofNat n)) (wf : s.WellFormed)
    (hm : m.Over s.encoding) (hok : violationOk m f (.ofNat n) l s.accepts)
    (hsolved : ∀ V, s.encoding.Agrees ρ V → m.IsPath s.encoding V.word n ∧
      violationValue m f (.ofNat n) l s.encoding s.encoding.atoms V)
    (hwitness : (witness m f (.ofNat n) l ρ s).1 = .ok lb) :
    ∃ V, Shows m f s n (extract ρ (.ofNat n) lb (witness m f (.ofNat n) l ρ s).2).1 V := by
  have hw := witness_leads f (.ofNat n) l ρ wf hm
  have ht := extract_leads hw.wf ρ (.ofNat n) lb
  have hrecords := extract_records hw.wf ρ (show n < 2 ^ 63 by omega) lb
  -- the view of the final encoder agrees with everything that was made before
  have hV := (ht.wf.encoding.agrees_viewOf ρ).of_le hw.wf.encoding ht.grows
  obtain ⟨hpath, hval⟩ := hsolved _ (hV.of_le wf.encoding hw.grows)
  obtain ⟨hshape, hlbok, hlbval⟩ := witness_spec f hn wf hm s.encoding.interprets_atoms hfeasible
    hwitness hV hok hval
  exact ⟨_, hrecords.of_vars hw.vars, hpath, hshape, hlbok, hlbval⟩

/-- What a search does at a length: the length is skipped, the violation has no encoding, there is
no solution and the search goes on, or there is one, which is shown if the states of its path can be
counted. -/
inductive Round {σ : Type} (m : Machine) (attack : Attack σ) (Inv : Nat → σ → Encoder → Prop)
    (f : Formula) (bound : Int64) (l : Loop) (count n : Nat) (u : σ) (s : Encoder)
    (r : CheckResult × Encoder) : Prop
  | skipped (hskip : ¬ feasible l (.ofNat n))
      (hr : r = searchFrom m attack f bound l count (.ofNat (n + 1)) u s)
  | failed (hfeasible : feasible l (.ofNat n)) {err : EncodeError}
      (herr : (violation m f (.ofNat n) l s).1.error? = some err) (hleads : s.Leads r.2)
      (hr : r.1 = .failure (.ofNat n) err)
  | passed (hfeasible : feasible l (.ofNat n)) (herr : (violation m f (.ofNat n) l s).1.error? = none)
      (hno : ¬ Violable m f l s n) {u' : σ} {s' : Encoder} (hleads : s.Leads s')
      (hinv : Inv (n + 1) u' s')
      (hr : r = searchFrom m attack f bound l count (.ofNat (n + 1)) u' s')
  | found (hfeasible : feasible l (.ofNat n)) (herr : (violation m f (.ofNat n) l s).1.error? = none)
      (hviolable : Violable m f l s n) (hleads : s.Leads r.2) (hn : n + 1 < 2 ^ 63) {tr : Trace}
      {V : View} (hshows : Shows m f s n tr V)
      (hr : r.1 = { outcome := .counterexample, bound := .ofNat n, trace? := some tr })
  | overrun (hfeasible : feasible l (.ofNat n))
      (herr : (violation m f (.ofNat n) l s).1.error? = none) (hviolable : Violable m f l s n)
      (hleads : s.Leads r.2) (hn : n + 1 = 2 ^ 63)
      (hr : r.1 = .overrun (.ofNat n))

section

variable {σ : Type} {m : Machine} {attack : Attack σ} {Inv : Nat → σ → Encoder → Prop}
  (hattack : Attacks m attack Inv) (f : Formula) (bound : Int64) (l : Loop)

include hattack

theorem Attacks.eq_none_iff {f : Formula} {l : Loop} {n : Nat} (hn : n < 2 ^ 63) {u : σ}
    {s : Encoder} (wf : s.WellFormed) (hm : m.Over s.encoding) (hinv : Inv n u s)
    (herror : (violation m f (.ofNat n) l s).1.error? = none) :
    (attack (.ofNat n) (violation m f (.ofNat n) l s).1.expr u
      (violation m f (.ofNat n) l s).2).1.1 = none ↔ ¬ Violable m f l s n := by
  have hviolation := violation_encodes f (.ofNat n) l wf hm
  have hto := hviolation.evolves
  have hm' := hm.of_le wf.encoding hto.grows
  have hdenotes := hviolation.means herror _ (s.encoding.interprets_atoms.of_vars hto.vars)
  have hinv' := hattack.later wf hm hinv (Nat.le_refl n) hto
  constructor
  · rintro hnone ⟨V, hpath, hval⟩
    have hfalse := hattack.fails hn hto.wf hm' hinv' hdenotes hnone V
      ((hm.isPath_iff wf.encoding hto.grows _ _).2 hpath)
    rw [hval] at hfalse
    cases hfalse
  · intro hno
    refine Option.eq_none_iff_forall_ne_some.2 fun ρ hsome => hno ?_
    have ha := (hattack.leads hn hto.wf hm' hinv' hdenotes).1
    obtain ⟨hpath, hval⟩ := hattack.succeeds hn hto.wf hm' hinv' hdenotes hsome _
      (ha.wf.encoding.agrees_viewOf ρ)
    exact ⟨_, (hm.isPath_iff wf.encoding hto.grows _ _).1 hpath, hval⟩

theorem searchFrom_round (count : Nat) {n : Nat} (hn : n < 2 ^ 63) {u : σ} {s : Encoder}
    (wf : s.WellFormed) (hm : m.Over s.encoding) (hinv : Inv n u s) :
    Round m attack Inv f bound l count n u s
      (searchFrom m attack f bound l (count + 1) (.ofNat n) u s) := by
  have hsucc : Int64.ofNat n + 1 = Int64.ofNat (n + 1) := (Int64.ofNat_add n 1).symm
  rw [searchFrom_succ, hsucc]
  cases hfeasible : feasible l (.ofNat n) with
  | false => exact .skipped (by rw [hfeasible]; nofun) rfl
  | true =>
    -- the violation is encoded, then attacked, then a loop is chosen; each of these leaves behind an
    -- encoder that only grows
    have hviolation := violation_encodes f (.ofNat n) l wf hm
    have hto := hviolation.evolves
    rw [if_neg (show ¬ (!true) = true from Bool.false_ne_true)]
    cases herr : (violation m f (.ofNat n) l s).1.error? with
    | some err => exact .failed hfeasible herr hto rfl
    | none =>
      have hdenotes := hviolation.means herr _ (s.encoding.interprets_atoms.of_vars hto.vars)
      have hm' := hm.of_le wf.encoding hto.grows
      have hinv' := hattack.later wf hm hinv (Nat.le_refl n) hto
      obtain ⟨ha, hinva⟩ := hattack.leads hn hto.wf hm' hinv' hdenotes
      have hnone := hattack.eq_none_iff hn wf hm hinv herr
      dsimp only
      generalize hattacked : attack (.ofNat n) (violation m f (.ofNat n) l s).1.expr u
        (violation m f (.ofNat n) l s).2 = a at ha hinva hnone ⊢
      have htoa := hto.trans ha
      have hma := hm.of_le wf.encoding htoa.grows
      cases hsolved : a.1.1 with
      | none =>
        exact .passed hfeasible herr (hnone.1 hsolved) htoa
          (hattack.later htoa.wf hma hinva (Nat.le_succ n) (.refl htoa.wf)) rfl
      | some ρ =>
        -- a solution comes from a violation, as there is none where nothing is violated
        have hviolable : Violable m f l s n := by
          by_contra hno
          rw [hnone.2 hno] at hsolved
          cases hsolved
        have hok := htoa.accepts_eq ▸ hviolation.succeeds.1 herr
        have hw := witness_leads f (.ofNat n) l ρ htoa.wf hma
        obtain ⟨lb, hlb⟩ := witness_succeeds ρ htoa.wf hma hok
        dsimp only
        rw [hlb]
        dsimp only
        split
        · rename_i hmax
          exact .overrun hfeasible herr hviolable (htoa.trans hw)
            ((ofNat_eq_maxValue_iff hn).1 hmax) rfl
        · rename_i hmax
          have hlt : n + 1 < 2 ^ 63 := by
            rw [ofNat_eq_maxValue_iff hn] at hmax
            omega
          have ht := extract_leads hw.wf ρ (.ofNat n) lb
          have hfound : ∀ V, a.2.encoding.Agrees ρ V → m.IsPath a.2.encoding V.word n ∧
              violationValue m f (.ofNat n) l a.2.encoding a.2.encoding.atoms V := by
            intro V hV
            rw [violationValue_of_leads wf hm htoa, htoa.atoms_eq,
              hm.isPath_iff wf.encoding htoa.grows, ← hm.isPath_iff wf.encoding hto.grows]
            exact hattack.succeeds hn hto.wf hm' hinv' hdenotes (hattacked ▸ hsolved) V
              (hattacked ▸ hV)
          obtain ⟨V, hshows⟩ := extract_shows f hlt hfeasible htoa.wf hma hok hfound hlb
          exact .found hfeasible herr hviolable (htoa.trans (hw.trans ht)) hlt
            (hshows.of_leads wf hm htoa) rfl

/-- A search reports the first length with a counterexample unless something fails. -/
theorem searchFrom_spec (count : Nat) {n : Nat} (hcount : n + count ≤ 2 ^ 63) {u : σ}
    {s : Encoder} (wf : s.WellFormed) (hm : m.Over s.encoding) (hinv : Inv n u s) :
    s.Leads (searchFrom m attack f bound l count (.ofNat n) u s).2 ∧
      ((searchFrom m attack f bound l count (.ofNat n) u s).1.error? = none →
        ∃ j, Reports m f bound l s n count
          (searchFrom m attack f bound l count (.ofNat n) u s).1 j) := by
  induction count generalizing n u s with
  | zero =>
    rw [searchFrom]
    split
    · exact ⟨.refl wf, nofun⟩
    · exact ⟨.refl wf,
        fun _ => ⟨n, Nat.le_refl n, fun i hi hin => by omega, .inl ⟨rfl, rfl, rfl⟩⟩⟩
  | succ count ih =>
    have hok := (violation_encodes f (.ofNat n) l wf hm).succeeds
    cases searchFrom_round hattack f bound l count (by omega) wf hm hinv with
    | skipped hskip hr =>
      rw [hr]
      obtain ⟨hleads, hrest⟩ := ih (n := n + 1) (by omega) wf hm
        (hattack.later wf hm hinv (Nat.le_succ n) (.refl wf))
      refine ⟨hleads, fun herror => ?_⟩
      obtain ⟨j, hj⟩ := hrest herror
      exact ⟨j, hj.round fun hfeasible => absurd hfeasible hskip⟩
    | failed _ _ hleads hr =>
      rw [hr]
      exact ⟨hleads, nofun⟩
    | passed _ herr hno hto hinv' hr =>
      rw [hr]
      obtain ⟨hleads, hrest⟩ := ih (n := n + 1) (by omega) hto.wf
        (hm.of_le wf.encoding hto.grows) hinv'
      refine ⟨hto.trans hleads, fun herror => ?_⟩
      obtain ⟨j, hj⟩ := hrest herror
      exact ⟨j, (hj.of_leads wf hm hto).round fun _ => ⟨hok.1 herr, hno⟩⟩
    | @found hfeasible herr hviolable hleads hn tr V hshows hr =>
      rw [hr]
      exact ⟨hleads, fun _ => ⟨n, Nat.le_refl n, fun i hi hin => by omega,
        .inr ⟨by omega, hn, rfl, rfl, hfeasible, hok.1 herr, hviolable, tr, V, rfl, hshows⟩⟩⟩
    | overrun _ _ _ hleads _ hr =>
      rw [hr]
      exact ⟨hleads, nofun⟩

theorem search_spec {start : σ} (exactly : Bool) {s : Encoder} (wf : s.WellFormed)
    (hm : m.Over s.encoding) (hinv : Inv 0 start s) :
    s.Leads (search m attack start f bound l exactly s).2 ∧
      ((search m attack start f bound l exactly s).1.error? = none →
        ∃ b j, b < 2 ^ 63 ∧ bound = .ofNat b ∧
          Reports m f bound l s (if exactly then b else 0) (if exactly then 1 else b + 1)
            (search m attack start f bound l exactly s).1 j) := by
  unfold search
  cases hcheck : l.check bound with
  | error e => exact ⟨.refl wf, nofun⟩
  | ok _ =>
    obtain ⟨b, hb, rfl⟩ := Loop.exists_ofNat_of_check hcheck
    dsimp only
    split
    · exact ⟨.refl wf, nofun⟩
    · cases exactly with
      | true =>
        obtain ⟨hleads, hrest⟩ := searchFrom_spec hattack f (.ofNat b) l 1 (n := b) hb wf hm
          (hattack.later wf hm hinv (Nat.zero_le b) (.refl wf))
        refine ⟨hleads, fun herror => ?_⟩
        obtain ⟨j, hj⟩ := hrest herror
        exact ⟨b, j, hb, rfl, hj⟩
      | false =>
        have hcount : ((Int64.ofNat b).toInt + 1).toNat = b + 1 := by
          rw [Int64.toInt_ofNat_of_lt hb]
          omega
        rw [hcount]
        obtain ⟨hleads, hrest⟩ := searchFrom_spec hattack f (.ofNat b) l (b + 1) (n := 0)
          (by omega) wf hm hinv
        refine ⟨hleads, fun herror => ?_⟩
        obtain ⟨j, hj⟩ := hrest herror
        exact ⟨b, j, hb, rfl, hj⟩

end

theorem check_spec [Solver] {m : Machine} (f : Formula) (bound : Int64) (l : Loop) (exactly : Bool)
    {s : Encoder} (wf : s.WellFormed) (hm : m.Over s.encoding) :
    s.Leads (check m f bound l exactly s).2 ∧
      ((check m f bound l exactly s).1.error? = none →
        ∃ b j, b < 2 ^ 63 ∧ bound = .ofNat b ∧
          Reports m f bound l s (if exactly then b else 0) (if exactly then 1 else b + 1)
            (check m f bound l exactly s).1 j) :=
  search_spec (attackAfresh_attacks m) f bound l exactly wf hm trivial

end Encoder

end Lasso
