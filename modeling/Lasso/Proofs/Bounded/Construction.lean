import Lasso.Proofs.Bounded.Encoder

/-! # The parts of an encoding

Each part of an encoding succeeds under a condition on the atomic propositions, and then makes an
expression with certain values.  This is kept by what the encodings are put together with:
remembering, joining, and unfolding over a list of times.
-/

namespace Lasso

set_option autoImplicit false

namespace Encoder

open Encoding

/-- From `s`, an encoding was made that succeeds if `ok` and then has the values `φ`. -/
structure Encodes (s : Encoder) (r : Encoded × Encoder) (keeps : Key → Prop) (ok : Bool)
    (φ : Atoms → View → Bool) : Prop where
  evolves : Evolves keeps s r.2
  mem : r.1.expr ∈ r.2.encoding.graph
  succeeds : r.1.error? = none ↔ ok
  means : r.1.error? = none → r.2.Means r.1.expr φ

/-- What an encoding does to every encoder that is well-formed. -/
def Meets (m : EncodeM Encoded) (keeps : Key → Prop) (ok : (Expr → Bool) → Bool)
    (φ : Atoms → View → Bool) : Prop :=
  ∀ s : Encoder, s.WellFormed → s.Encodes (m s) keeps (ok s.accepts) φ

section

variable {s s' : Encoder} {r : Encoded × Encoder} {keeps keeps' : Key → Prop} {ok ok' : Bool}
  {φ ψ : Atoms → View → Bool}

theorem Encodes.after (h : Evolves keeps s s') (h' : s'.Encodes r keeps ok φ) :
    s.Encodes r keeps ok φ :=
  ⟨h.trans h'.evolves, h'.mem, h'.succeeds, h'.means⟩

theorem Encodes.mono (h : s.Encodes r keeps ok φ) (himp : ∀ key, keeps' key → keeps key) :
    s.Encodes r keeps' ok φ :=
  ⟨h.evolves.mono himp, h.mem, h.succeeds, h.means⟩

theorem Encodes.congr (h : s.Encodes r keeps ok φ) (hok : ok = ok') (heq : ∀ p V, φ p V = ψ p V) :
    s.Encodes r keeps ok' ψ :=
  ⟨h.evolves, h.mem, hok ▸ h.succeeds, fun he => (h.means he).congr heq⟩

theorem Encodes.of_means (h : Evolves keeps s s') {l : Lit} (hl : s'.Means l φ) :
    s.Encodes (⟨l, none⟩, s') keeps true φ :=
  ⟨h, hl.mem, by simp, fun _ => hl⟩

theorem Encodes.of_fail (wf : s.WellFormed) (e : EncodeError) :
    s.Encodes (.fail e, s) keeps false φ :=
  ⟨.refl wf, wf.encoding.graph.falsity_mem, by simp [Encoded.fail], fun he => by cases he⟩

theorem Encodes.bind {m : EncodeM Encoded} {k : Encoded → EncodeM Encoded}
    (h : s.Encodes (m s) keeps ok φ)
    (hk : (m s).2.Means (m s).1.expr φ → (m s).2.Encodes (k (m s).1 (m s).2) keeps ok' ψ) :
    s.Encodes ((m >>= fun a => if a.failed then return a else k a : EncodeM Encoded) s) keeps
      (ok && ok') ψ := by
  change s.Encodes ((if (m s).1.failed then return (m s).1 else k (m s).1 : EncodeM Encoded)
    (m s).2) _ _ _
  split
  · rename_i hf
    have hne : (m s).1.error? ≠ none := by
      intro hnone
      simp [Encoded.failed, hnone] at hf
    have hok : ok = false := by simpa [hne] using h.succeeds
    rw [hok, Bool.false_and]
    exact ⟨h.evolves, h.mem, ⟨fun he => absurd he hne, nofun⟩, fun he => absurd he hne⟩
  · rename_i hf
    have hnone : (m s).1.error? = none := by
      simpa [Encoded.failed] using hf
    rw [h.succeeds.1 hnone, Bool.true_and]
    exact (hk (h.means hnone)).after h.evolves

theorem Encodes.join {join : Lit → Lit → StateM Graph Lit} {op : Bool → Bool → Bool}
    (hjoin : Graph.Computes join op) (wf : s.WellFormed) {a b : Lit} (ha : s.Means a φ)
    (hb : s.Means b ψ) :
    s.Encodes ((do return ⟨← onGraph (join a b), none⟩ : EncodeM Encoded) s) keeps true
      (fun p V => op (φ p V) (ψ p V)) :=
  Encodes.of_means (onGraph_evolves hjoin wf ha.mem hb.mem keeps).1 (onGraph_means hjoin wf ha hb)

end

section

variable {m : EncodeM Encoded} {keeps keeps' : Key → Prop} {ok ok' : (Expr → Bool) → Bool}
  {φ ψ : Atoms → View → Bool}

theorem Meets.mono (h : Meets m keeps ok φ) (himp : ∀ key, keeps' key → keeps key) :
    Meets m keeps' ok φ :=
  fun s wf => (h s wf).mono himp

theorem Meets.congr (h : Meets m keeps ok φ) (hok : ∀ acc, ok acc = ok' acc)
    (heq : ∀ p V, φ p V = ψ p V) : Meets m keeps ok' ψ :=
  fun s wf => (h s wf).congr (hok _) heq

theorem Meets.leads (h : Meets m keeps ok φ) {s s' : Encoder} (hs : s.Leads s') :
    s'.Encodes (m s') keeps (ok s.accepts) φ :=
  hs.accepts_eq ▸ h s' hs.wf

theorem falsity_meets : Meets (return ⟨Graph.falsity, none⟩) keeps (fun _ => true)
    (fun _ _ => false) :=
  fun _ wf => Encodes.of_means (.refl wf) (means_falsity wf)

theorem fail_meets (e : EncodeError) : Meets (return .fail e) keeps (fun _ => false) φ :=
  fun _ wf => Encodes.of_fail wf e

theorem Meets.not (h : Meets m keeps ok φ) :
    Meets (do return (← m).not) keeps ok (fun p V => !φ p V) := by
  intro s wf
  obtain ⟨hev, hmem, hok, hmeans⟩ := h s wf
  exact ⟨hev, hmem, hok, fun he => (hmeans he).not⟩

theorem both_meets {join : Lit → Lit → StateM Graph Lit} {op : Bool → Bool → Bool}
    (hjoin : Graph.Computes join op) {m' : EncodeM Encoded} (h : Meets m keeps ok φ)
    (h' : Meets m' keeps ok' ψ) :
    Meets (both join m m') keeps (fun acc => ok acc && ok' acc)
      (fun p V => op (φ p V) (ψ p V)) := by
  intro s wf
  change s.Encodes _ keeps (ok s.accepts && ok' s.accepts) _
  refine (h s wf).bind fun hl => ?_
  have hev := (h s wf).evolves
  have hr := h' _ hev.wf
  rw [hev.accepts_eq] at hr
  rw [← Bool.and_true (ok' s.accepts)]
  refine hr.bind fun hm => ?_
  exact Encodes.join hjoin hr.evolves.wf (hr.evolves.means hev.wf hl) hm

end

theorem bind_apply {α β : Type} (m : EncodeM α) (k : α → EncodeM β) (s : Encoder) :
    (m >>= k) s = k (m s).1 (m s).2 := rfl

theorem remember_eq (key : Key) (body : EncodeM Encoded) (s : Encoder) :
    remember key body s =
      match s.cache.entries[key]? with
      | some l => (⟨l, none⟩, { s with cache := { s.cache with hits := s.cache.hits + 1 } })
      | none =>
        let r := body { s with cache := { s.cache with misses := s.cache.misses + 1 } }
        if r.1.failed then r
        else match r.2.cache.entries[key]? with
          | some l => (if l = r.1.expr then r.1 else ⟨r.1.expr, some (.inconsistent key)⟩, r.2)
          | none => (r.1, { r.2 with cache :=
            { r.2.cache with entries := r.2.cache.entries.insert key r.1.expr } }) := by
  have hstep : remember key body s = (match (Cache.find key s.cache).1 with
    | some l => (return ⟨l, none⟩ : EncodeM Encoded)
    | none => body >>= fun r => if r.failed then return r else
        onCache (Cache.bind key r.expr) >>= fun new =>
          if new then return r else return ⟨r.expr, some (.inconsistent key)⟩)
      { s with cache := (Cache.find key s.cache).2 } := rfl
  rw [hstep, Cache.find]
  cases hkey : s.cache.entries[key]? with
  | some l => rfl
  | none =>
    dsimp only
    rw [bind_apply]
    generalize body { s with cache := { s.cache with misses := s.cache.misses + 1 } } = r
    cases r.1.failed with
    | true => rfl
    | false =>
      change ((onCache (Cache.bind key r.1.expr) >>= fun new => if new then return r.1
        else return ⟨r.1.expr, some (.inconsistent key)⟩ : EncodeM Encoded) r.2) = _
      rw [bind_apply, onCache_eq, Cache.bind]
      cases hbound : r.2.cache.entries[key]? with
      | none => rfl
      | some l =>
        by_cases hl : l = r.1.expr
        · simp only [hl, decide_true, if_true]
          rfl
        · simp only [hl, decide_false, if_false]
          rfl

theorem Evolves.of_counts {s : Encoder} (wf : s.WellFormed) (keeps : Key → Prop)
    (hits misses : Nat) : Evolves keeps s { s with cache := ⟨s.cache.entries, hits, misses⟩ } :=
  ⟨⟨wf.encoding, wf.cache⟩, le_refl _, rfl, fun _ _ => rfl⟩

theorem Evolves.of_insert {s : Encoder} (wf : s.WellFormed) {key : Key} {l : Lit}
    (hok : key.ok s.accepts) (hl : s.Means l key.value) :
    Evolves (· ≠ key) s
      { s with cache := { s.cache with entries := s.cache.entries.insert key l } } := by
  have hget : ∀ k : Key, (s.cache.entries.insert key l)[k]? =
      if key = k then some l else s.cache.entries[k]? := by
    intro k
    simp [Std.HashMap.getElem?_insert]
  refine ⟨⟨wf.encoding, fun k m hm => ?_⟩, le_refl _, rfl, fun k hk => ?_⟩
  · change (s.cache.entries.insert key l)[k]? = some m at hm
    rw [hget] at hm
    split at hm
    · rename_i hkey
      subst hkey
      cases hm
      exact ⟨hok, hl⟩
    · exact wf.cache k m hm
  · change (s.cache.entries.insert key l)[k]? = s.cache.entries[k]?
    rw [hget, if_neg hk.symm]

/-- What is remembered is encoded once, and an encoding that leaves its own key alone binds it. -/
theorem remember_meets {key : Key} {body : EncodeM Encoded} {keeps : Key → Prop}
    (hkeeps : keeps key) (hbody : Meets body keeps key.ok key.value) :
    Meets (remember key body) (fun k => keeps k ∧ k ≠ key) key.ok key.value := by
  intro s wf
  rw [remember_eq]
  cases hkey : s.cache.entries[key]? with
  | some l =>
    obtain ⟨hok, hl⟩ := wf.cache key l hkey
    rw [hok]
    exact Encodes.of_means (Evolves.of_counts wf _ _ _) hl
  | none =>
    have hstart := Evolves.of_counts wf keeps s.cache.hits (s.cache.misses + 1)
    have h := (hbody _ hstart.wf).after hstart
    have hnew := h.evolves.keys key hkeeps
    change s.Encodes _ keeps (key.ok s.accepts) _ at h
    dsimp only
    generalize body { s with cache := { s.cache with misses := s.cache.misses + 1 } } = r at h hnew
    split
    · exact h.mono fun k hk => hk.1
    · rename_i hf
      have hnone : r.1.error? = none := by
        simpa [Encoded.failed] using hf
      have hok := h.succeeds.1 hnone
      have hmeans := h.means hnone
      rw [hnew, hkey]
      have hinsert := Evolves.of_insert h.evolves.wf (h.evolves.accepts_eq ▸ hok) hmeans
      refine ⟨?_, h.mem, h.succeeds, fun _ => hmeans⟩
      exact (h.evolves.mono fun k hk => hk.1).trans (hinsert.mono fun k hk => hk.2)

theorem proposition_eq (e : Expr) (time : Int64) (s : Encoder) :
    proposition e time s =
      let converted := (condition false e).run s.encoding
      match converted.1 with
      | .error err => (.fail (.condition err), { s with encoding := converted.2 })
      | .ok l =>
        let timed := onEncoding (instantiate l time.toUInt64) { s with encoding := converted.2 }
        (⟨timed.1, none⟩, timed.2) := by
  rw [proposition, bind_apply, onEncoding_eq]
  dsimp only
  cases ((condition false e).run s.encoding).1 <;> rfl

theorem proposition_meets (e : Expr) (time : Int64) {keeps : Key → Prop} :
    Meets (proposition e time) keeps (fun acc => acc e) (fun p V => p V time.toUInt64 e) := by
  intro s wf
  obtain ⟨hatt, hacc⟩ := condition_attempts wf.encoding false e
  have hev : Evolves keeps s { s with encoding := ((condition false e).run s.encoding).2 } :=
    wf.evolves hatt.wf hatt.grows hatt.vars keeps
  rw [proposition_eq]
  change s.Encodes _ keeps (s.accepts e) _
  dsimp only
  cases hr : ((condition false e).run s.encoding).1 with
  | error err =>
    have hno : s.accepts e = false := by
      by_contra hyes
      obtain ⟨l, hl⟩ := exists_condition wf.encoding e (by simpa [accepts] using hyes)
      rw [hr] at hl
      cases hl
    rw [hno]
    exact (Encodes.of_fail hev.wf _).after hev
  | ok l =>
    have hyes : s.accepts e = true := hacc l hr
    rw [hyes]
    have hbuild := instantiate_builds hatt.wf (hatt.denotes l hr) time.toUInt64
    have hev' := onEncoding_evolves (s := { s with
      encoding := ((condition false e).run s.encoding).2 }) hev.wf hbuild keeps
    refine Encodes.of_means (hev.trans hev') fun p hp => hbuild.denotes.congr fun V => ?_
    have hp' := hp.of_le (le_trans hev.grows hev'.grows)
    rw [hp' V _ e hyes, View.now_atTime, View.next_atTime]
    exact conditionValue_next e hyes _ _ _

theorem joinTimes_encodes {join : Lit → Lit → StateM Graph Lit} {op : Bool → Bool → Bool}
    (hjoin : Graph.Computes join op) {encode : Int64 → EncodeM Encoded} {keeps : Key → Prop}
    {ok : Int64 → Bool} {φ : Int64 → Atoms → View → Bool} (ts : List Int64) {s : Encoder}
    (wf : s.WellFormed)
    (hencode : ∀ t ∈ ts, ∀ s', s.Leads s' → s'.Encodes (encode t s') keeps (ok t) (φ t))
    {result : Lit} {ψ : Atoms → View → Bool} (hresult : s.Means result ψ) :
    s.Encodes (joinTimes join encode ts result s) keeps (ts.all ok)
      (fun p V => ts.foldl (fun acc t => op acc (φ t p V)) (ψ p V)) := by
  induction ts generalizing s result ψ with
  | nil => exact Encodes.of_means (.refl wf) hresult
  | cons t ts ih =>
    have hnow := hencode t List.mem_cons_self s (.refl wf)
    refine hnow.bind fun hmeans => ?_
    have hold := hnow.evolves.means wf hresult
    obtain ⟨hev, -⟩ := onGraph_evolves hjoin hnow.evolves.wf hold.mem hmeans.mem keeps
    have hjoined := onGraph_means hjoin hnow.evolves.wf hold hmeans
    have hleads := (hnow.evolves.trans hev).leads
    have hrest := ih hev.wf (fun u hu s' hs' =>
      hencode u (List.mem_cons_of_mem t hu) s' (hleads.trans hs')) hjoined
    exact hrest.after hev

theorem unfoldTimes_cons (outer inner : Lit → Lit → StateM Graph Lit)
    (goal wait : Int64 → EncodeM Encoded) (t : Int64) (ts : List Int64) (result : Lit)
    (s : Encoder) :
    unfoldTimes outer inner goal wait (t :: ts) result s =
      let q := goal t s
      let p := wait t q.2
      match q.1.error?.or p.1.error? with
      | some e => (.fail e, p.2)
      | none =>
        let later := onGraph (inner p.1.expr result) p.2
        let now := onGraph (outer q.1.expr later.1) later.2
        unfoldTimes outer inner goal wait ts now.1 now.2 := by
  rw [unfoldTimes, bind_apply, bind_apply]
  dsimp only
  cases (goal t s).1.error?.or (wait t (goal t s).2).1.error? <;> rfl

theorem unfoldTimes_encodes {outer inner : Lit → Lit → StateM Graph Lit}
    {out inn : Bool → Bool → Bool} (houter : Graph.Computes outer out)
    (hinner : Graph.Computes inner inn) {goal wait : Int64 → EncodeM Encoded} {keeps : Key → Prop}
    {ok ok' : Int64 → (Expr → Bool) → Bool} {φ φ' : Int64 → Atoms → View → Bool} (ts : List Int64)
    (hgoal : ∀ t ∈ ts, Meets (goal t) keeps (ok t) (φ t))
    (hwait : ∀ t ∈ ts, Meets (wait t) keeps (ok' t) (φ' t)) {s : Encoder} (wf : s.WellFormed)
    {result : Lit} {ψ : Atoms → View → Bool} (hresult : s.Means result ψ) :
    s.Encodes (unfoldTimes outer inner goal wait ts result s) keeps
      (ts.all fun t => ok t s.accepts && ok' t s.accepts)
      (fun p V => ts.foldl (fun acc t => out (φ t p V) (inn (φ' t p V) acc)) (ψ p V)) := by
  induction ts generalizing s result ψ with
  | nil => exact Encodes.of_means (.refl wf) hresult
  | cons t ts ih =>
    have hq := hgoal t List.mem_cons_self s wf
    have hp := hwait t List.mem_cons_self _ hq.evolves.wf
    rw [hq.evolves.accepts_eq] at hp
    -- goal and waiting are both encoded before either of them may end the construction
    have hboth := hq.evolves.trans hp.evolves
    rw [unfoldTimes_cons, List.all_cons]
    dsimp only
    cases he : (goal t s).1.error?.or (wait t (goal t s).2).1.error? with
    | some e =>
      have hfail : (ok t s.accepts && ok' t s.accepts) = false := by
        by_contra hok
        rw [Bool.not_eq_false, Bool.and_eq_true] at hok
        rw [hq.succeeds.2 hok.1, hp.succeeds.2 hok.2] at he
        cases he
      rw [hfail, Bool.false_and]
      exact (Encodes.of_fail hp.evolves.wf e).after hboth
    | none =>
      rw [Option.or_eq_none_iff] at he
      have hok := hq.succeeds.1 he.1
      have hok' := hp.succeeds.1 he.2
      have hgoalNow := hp.evolves.means hq.evolves.wf (hq.means he.1)
      have hold := hboth.means wf hresult
      have hwaitNow := hp.means he.2
      obtain ⟨hev, -⟩ := onGraph_evolves hinner hp.evolves.wf hwaitNow.mem hold.mem keeps
      have hlater := onGraph_means hinner hp.evolves.wf hwaitNow hold
      have hgoalLater := hev.means hp.evolves.wf hgoalNow
      obtain ⟨hev', -⟩ := onGraph_evolves houter hev.wf hgoalLater.mem hlater.mem keeps
      have hnow := onGraph_means houter hev.wf hgoalLater hlater
      have hrest := ih (fun u hu => hgoal u (List.mem_cons_of_mem t hu))
        (fun u hu => hwait u (List.mem_cons_of_mem t hu)) hev'.wf hnow
      have htotal := hboth.trans (hev.trans hev')
      rw [htotal.accepts_eq] at hrest
      rw [hok, hok', Bool.true_and, Bool.true_and]
      exact hrest.after htotal

end Encoder

end Lasso
