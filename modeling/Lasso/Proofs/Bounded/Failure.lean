import Lasso.Proofs.Bounded.Semantics
import Lasso.Proofs.Machine.Rejection

/-! # Encodings that fail

Encoders with the same variables fail alike, whatever else they have made or remember.  What is
remembered was encoded without failure, so a failure always comes from encoding anew.
-/

namespace Lasso

set_option autoImplicit false

namespace Encoder

open Encoding

/-- Two encoders that follow one encoding and have the same variables. -/
structure Alike (e : Encoding) (s s' : Encoder) : Prop where
  wf : s.WellFormed
  wf' : s'.WellFormed
  grows : e ≤ s.encoding
  grows' : e ≤ s'.encoding
  vars : s'.encoding.vars = s.encoding.vars

/-- Whether and how an encoding fails is the same for encoders that are alike. -/
def FailsAlike (e : Encoding) (x : EncodeM Encoded) : Prop :=
  ∀ ⦃s s' : Encoder⦄, Alike e s s' → (x s').1.error? = (x s).1.error?

/-- An encoding that fails alike and leaves encoders alike. -/
structure Steady (e : Encoding) (x : EncodeM Encoded) : Prop where
  leads : ∀ {s : Encoder}, s.WellFormed → e ≤ s.encoding → s.Leads (x s).2
  mem : ∀ {s : Encoder}, s.WellFormed → e ≤ s.encoding → (x s).1.expr ∈ (x s).2.encoding.graph
  fails : FailsAlike e x

section

variable {e : Encoding} {s s' t t' : Encoder} {x y z : EncodeM Encoded}

theorem Alike.of_leads (h : Alike e s s') (ht : s.Leads t) (ht' : s'.Leads t') : Alike e t t' where
  wf := ht.wf
  wf' := ht'.wf
  grows := le_trans h.grows ht.grows
  grows' := le_trans h.grows' ht'.grows
  vars := ht'.vars.trans (h.vars.trans ht.vars.symm)

theorem Alike.accepts_eq (h : Alike e s s') : s'.accepts = s.accepts :=
  funext fun x => accepts_congr h.vars false x

theorem Steady.alike (hx : Steady e x) (h : Alike e s s') : Alike e (x s).2 (x s').2 :=
  h.of_leads (hx.leads h.wf h.grows) (hx.leads h.wf' h.grows')

theorem Steady.of_encodes {keeps : Key → Prop} {ok : Encoder → Bool}
    {φ : Encoder → Atoms → View → Bool}
    (hx : ∀ s : Encoder, s.WellFormed → e ≤ s.encoding → s.Encodes (x s) keeps (ok s) (φ s))
    (hfails : FailsAlike e x) : Steady e x where
  leads wf hle := (hx _ wf hle).evolves.leads
  mem wf hle := (hx _ wf hle).mem
  fails := hfails

theorem Meets.steady {keeps : Key → Prop} {ok : (Expr → Bool) → Bool} {φ : Atoms → View → Bool}
    (hx : Meets x keeps ok φ) (hfails : FailsAlike e x) : Steady e x :=
  .of_encodes (fun s wf _ => hx s wf) hfails

theorem Meets.failsAlike {keeps : Key → Prop} {φ : Atoms → View → Bool}
    (hx : Meets x keeps (fun _ => true) φ) : FailsAlike e x := by
  intro s s' h
  rw [(hx s h.wf).succeeds.2 rfl, (hx s' h.wf').succeeds.2 rfl]

theorem return_failsAlike (r : Encoded) : FailsAlike e (return r) := fun _ _ _ => rfl

theorem ite_failsAlike {c : Prop} [Decidable c] (hx : FailsAlike e x) (hy : ¬ c → FailsAlike e y) :
    FailsAlike e (if c then x else y) := by
  by_cases hc : c
  · rw [if_pos hc]
    exact hx
  · rw [if_neg hc]
    exact hy hc

theorem proposition_failsAlike (a : Expr) (time : Int64) : FailsAlike e (proposition a time) := by
  intro s s' h
  have herror : ∀ s : Encoder, (proposition a time s).1.error? =
      (reason? ((condition false a).run s.encoding).1).map .condition := by
    intro s
    rw [proposition_eq]
    dsimp only
    cases ((condition false a).run s.encoding).1 <;> rfl
  rw [herror, herror, reason?_condition h.vars]

theorem Steady.bind {k k' : Encoded → EncodeM Encoded} (hx : Steady e x) (h : Alike e s s')
    (hk : (k' (x s').1 (x s').2).1.error? = (k (x s).1 (x s).2).1.error?) :
    ((x >>= fun a => if a.failed then return a else k' a : EncodeM Encoded) s').1.error? =
      ((x >>= fun a => if a.failed then return a else k a : EncodeM Encoded) s).1.error? := by
  have herror := hx.fails h
  have hfailed : (x s').1.failed = (x s).1.failed := by
    rw [Encoded.failed, Encoded.failed, herror]
  change ((if (x s').1.failed then return (x s').1 else k' (x s').1 : EncodeM Encoded)
    (x s').2).1.error? = ((if (x s).1.failed then return (x s).1 else k (x s).1 : EncodeM Encoded)
      (x s).2).1.error?
  rw [hfailed]
  split
  · exact herror
  · exact hk

theorem both_failsAlike {join : Lit → Lit → StateM Graph Lit} (hx : Steady e x)
    (hy : Steady e y) : FailsAlike e (both join x y) :=
  fun _ _ h => hx.bind h (hy.bind (hx.alike h) rfl)

theorem pair_failsAlike {join : Lit → Lit → StateM Graph Lit} (hx : Steady e x)
    (hy : FailsAlike e y) :
    FailsAlike e (do
      let a ← x
      let b ← y
      return ⟨← onGraph (join a.expr b.expr), a.error?.or b.error?⟩) := by
  intro s s' h
  change (x s').1.error?.or (y (x s').2).1.error? = (x s).1.error?.or (y (x s).2).1.error?
  rw [hx.fails h, hy (hx.alike h)]

theorem triple_failsAlike {outer inner : Lit → Lit → StateM Graph Lit} (hx : Steady e x)
    (hy : Steady e y) (hz : FailsAlike e z) :
    FailsAlike e (do
      let a ← x
      let b ← y
      let c ← z
      let wait ← onGraph (inner b.expr c.expr)
      return ⟨← onGraph (outer a.expr wait), (a.error?.or b.error?).or c.error?⟩) := by
  intro s s' h
  change ((x s').1.error?.or (y (x s').2).1.error?).or (z (y (x s').2).2).1.error? =
    ((x s).1.error?.or (y (x s).2).1.error?).or (z (y (x s).2).2).1.error?
  rw [hx.fails h, hy.fails (hx.alike h), hz (hy.alike (hx.alike h))]

theorem joinTimes_failsAlike {join : Lit → Lit → StateM Graph Lit} {op : Bool → Bool → Bool}
    (hjoin : Graph.Computes join op) {encode : Int64 → EncodeM Encoded} (ts : List Int64)
    (hencode : ∀ t, Steady e (encode t)) {result result' : Lit} (h : Alike e s s')
    (hresult : result ∈ s.encoding.graph) (hresult' : result' ∈ s'.encoding.graph) :
    (joinTimes join encode ts result' s').1.error? =
      (joinTimes join encode ts result s).1.error? := by
  induction ts generalizing s s' result result' with
  | nil => rfl
  | cons t ts ih =>
    have ht := hencode t
    refine ht.bind h ?_
    have hafter := ht.alike h
    obtain ⟨hev, hmem⟩ := onGraph_evolves hjoin hafter.wf
      ((ht.leads h.wf h.grows).mem hresult) (ht.mem h.wf h.grows) (fun _ => False)
    obtain ⟨hev', hmem'⟩ := onGraph_evolves hjoin hafter.wf'
      ((ht.leads h.wf' h.grows').mem hresult') (ht.mem h.wf' h.grows') (fun _ => False)
    exact ih (hafter.of_leads hev hev') hmem hmem'

theorem nested_evolves {outer inner : Lit → Lit → StateM Graph Lit} {out inn : Bool → Bool → Bool}
    (houter : Graph.Computes outer out) (hinner : Graph.Computes inner inn) (wf : s.WellFormed)
    {a b c : Lit} (ha : a ∈ s.encoding.graph) (hb : b ∈ s.encoding.graph)
    (hc : c ∈ s.encoding.graph) (keeps : Key → Prop) :
    let wait := onGraph (inner b c) s
    let r := onGraph (outer a wait.1) wait.2
    Evolves keeps s r.2 ∧ r.1 ∈ r.2.encoding.graph := by
  obtain ⟨hev, hmem⟩ := onGraph_evolves hinner wf hb hc keeps
  obtain ⟨hev', hmem'⟩ := onGraph_evolves houter hev.wf (hev.mem ha) hmem keeps
  exact ⟨hev.trans hev', hmem'⟩

theorem unfoldTimes_failsAlike {outer inner : Lit → Lit → StateM Graph Lit}
    {out inn : Bool → Bool → Bool} (houter : Graph.Computes outer out)
    (hinner : Graph.Computes inner inn) {goal wait : Int64 → EncodeM Encoded} (ts : List Int64)
    (hgoal : ∀ t, Steady e (goal t)) (hwait : ∀ t, Steady e (wait t))
    {result result' : Lit} (h : Alike e s s') (hresult : result ∈ s.encoding.graph)
    (hresult' : result' ∈ s'.encoding.graph) :
    (unfoldTimes outer inner goal wait ts result' s').1.error? =
      (unfoldTimes outer inner goal wait ts result s).1.error? := by
  induction ts generalizing s s' result result' with
  | nil => rfl
  | cons t ts ih =>
    have hq := hgoal t
    have hp := hwait t
    rw [unfoldTimes_cons, unfoldTimes_cons]
    dsimp only
    rw [hq.fails h, hp.fails (hq.alike h)]
    cases (goal t s).1.error?.or (wait t (goal t s).2).1.error? with
    | some err => rfl
    | none =>
      have hmid := hq.alike h
      have hafter := hp.alike hmid
      have hleads := hp.leads hmid.wf hmid.grows
      have hleads' := hp.leads hmid.wf' hmid.grows'
      obtain ⟨hev, hmem⟩ := nested_evolves houter hinner hafter.wf
        (hleads.mem (hq.mem h.wf h.grows)) (hp.mem hmid.wf hmid.grows)
        (hleads.mem ((hq.leads h.wf h.grows).mem hresult)) (fun _ => False)
      obtain ⟨hev', hmem'⟩ := nested_evolves houter hinner hafter.wf'
        (hleads'.mem (hq.mem h.wf' h.grows')) (hp.mem hmid.wf' hmid.grows')
        (hleads'.mem ((hq.leads h.wf' h.grows').mem hresult')) (fun _ => False)
      exact ih (hafter.of_leads hev hev') hmem hmem'

/-- An encoding that fails was not remembered, so it was made and failed, or its key is bound to
another expression. -/
theorem remember_error_eq {key : Key} (hmissing : s.cache.entries[key]? = none)
    (hfails : (remember key x s).1.error? ≠ none) :
    (remember key x s).1.error? =
      some ((x { s with cache := { s.cache with misses := s.cache.misses + 1 } }).1.error?.getD
        (.inconsistent key)) := by
  rw [remember_eq, hmissing] at hfails ⊢
  dsimp only at hfails ⊢
  generalize x { s with cache := { s.cache with misses := s.cache.misses + 1 } } = r at hfails ⊢
  cases herror : r.1.error? with
  | some err =>
    have hfailed : r.1.failed = true := by
      rw [Encoded.failed, herror]
      rfl
    rw [if_pos hfailed, herror]
    rfl
  | none =>
    have hfailed : ¬ r.1.failed = true := by
      rw [Encoded.failed, herror]
      exact Bool.false_ne_true
    rw [if_neg hfailed] at hfails ⊢
    cases hbound : r.2.cache.entries[key]? with
    | none =>
      rw [hbound] at hfails
      exact absurd herror hfails
    | some l =>
      rw [hbound] at hfails
      dsimp only at hfails ⊢
      split at hfails
      · exact absurd herror hfails
      · rename_i hne
        rw [if_neg hne]
        rfl

theorem remember_failsAlike {key : Key} {keeps : Key → Prop} {φ : Atoms → View → Bool}
    (hwhole : Meets (remember key x) keeps key.ok φ) (hx : FailsAlike e x) :
    FailsAlike e (remember key x) := by
  intro s s' h
  have hfirst := (hwhole s h.wf).succeeds
  have hsecond := (hwhole s' h.wf').succeeds
  rw [h.accepts_eq] at hsecond
  by_cases hok : key.ok s.accepts = true
  · rw [hfirst.2 hok, hsecond.2 hok]
  · -- no encoder remembers what it cannot encode
    have hmissing : ∀ t : Encoder, t.WellFormed → t.accepts = s.accepts →
        t.cache.entries[key]? = none := by
      intro t wf hacc
      refine Option.eq_none_iff_forall_ne_some.2 fun l hl => hok ?_
      exact hacc ▸ (wf.cache key l hl).1
    rw [remember_error_eq (hmissing s h.wf rfl) (mt hfirst.1 hok),
      remember_error_eq (hmissing s' h.wf' h.accepts_eq) (mt hsecond.1 hok),
      hx (h.of_leads (Evolves.of_counts h.wf _ _ _) (Evolves.of_counts h.wf' _ _ _))]

end

section

variable {e : Encoding} {bound offset : Int64}

theorem position_failsAlike {f : Formula} {time : Int64} {body : EncodeM Encoded}
    {keeps : Key → Prop} {φ : Atoms → View → Bool}
    (hwhole : Meets (position f time bound offset body) keeps
      (fun acc => straightOk acc bound f time) φ)
    (hbody : time ≤ bound → FailsAlike e body) :
    FailsAlike e (position f time bound offset body) := by
  have hkeyok : ∀ acc, straightOk acc bound f time =
      (⟨f, time, bound, .none, offset⟩ : Key).ok acc := fun acc => (if_pos rfl).symm
  exact remember_failsAlike (hwhole.congr hkeyok fun _ _ => rfl)
    (ite_failsAlike (return_failsAlike _) fun h => hbody (Int64.not_lt.1 h))

theorem later_failsAlike {f : Formula} {time : Int64} (hle : time ≤ bound)
    (hself : time < bound → FailsAlike e (encodeStraight bound offset f (time + 1))) :
    FailsAlike e (encodeLater bound offset f time) := by
  by_cases hlt : time < bound
  · rw [encodeLater, if_pos hlt]
    exact hself hlt
  · refine ((later_meets hle fun _ => encodeStraight_meets f _).congr (fun acc => ?_)
      fun _ _ => rfl).failsAlike
    rw [if_neg hlt]

theorem encodeStraight_failsAlike (f : Formula) (time : Int64) :
    FailsAlike e (encodeStraight bound offset f time) := by
  -- how a part leaves encoders is known from what it encodes, whether it fails from the hypothesis
  have hmeets := @encodeStraight_meets bound offset
  induction f generalizing time with
  | atom a =>
    have hwhole := hmeets (.atom a) time
    rw [encodeStraight] at hwhole ⊢
    exact position_failsAlike hwhole fun _ => proposition_failsAlike a _
  | unary op f ih =>
    have hwhole := hmeets (.unary op f) time
    cases op with
    | not =>
      rw [encodeStraight] at hwhole ⊢
      exact position_failsAlike hwhole fun _ _ _ h => ih time h
    | next =>
      rw [encodeStraight] at hwhole ⊢
      exact position_failsAlike hwhole fun _ => ih (time + 1)
    | globally =>
      rw [encodeStraight] at hwhole ⊢
      exact position_failsAlike hwhole fun _ => return_failsAlike _
    | eventually =>
      refine induction_later bound (fun time hself => ?_) time
      have hwhole := hmeets (.unary .eventually f) time
      rw [encodeStraight_eventually] at hwhole ⊢
      exact position_failsAlike hwhole fun hle =>
        pair_failsAlike ((hmeets f time).steady (ih time)) (later_failsAlike hle hself)
    | previous | once | historically =>
      rw [encodeStraight.eq_def] at hwhole ⊢
      exact position_failsAlike hwhole fun _ => return_failsAlike _
  | binary op f g ihf ihg =>
    have hwhole := hmeets (.binary op f g) time
    have hleft := fun t => (hmeets f t).steady (ihf t)
    have hright := fun t => (hmeets g t).steady (ihg t)
    cases op with
    | untl =>
      refine induction_later bound (fun time hself => ?_) time
      have hwhole := hmeets (.binary .untl f g) time
      rw [encodeStraight_untl] at hwhole ⊢
      exact position_failsAlike hwhole fun hle =>
        triple_failsAlike (hright time) (hleft time) (later_failsAlike hle hself)
    | releases =>
      refine induction_later bound (fun time hself => ?_) time
      have hwhole := hmeets (.binary .releases f g) time
      rw [encodeStraight_releases] at hwhole ⊢
      exact position_failsAlike hwhole fun hle =>
        triple_failsAlike (hright time) (hleft time) (later_failsAlike hle hself)
    | and | or | xor | implies | iff =>
      rw [encodeStraight.eq_def] at hwhole ⊢
      exact position_failsAlike hwhole fun _ => both_failsAlike (hleft time) (hright time)
    | since | reserved =>
      rw [encodeStraight.eq_def] at hwhole ⊢
      exact position_failsAlike hwhole fun _ => return_failsAlike _

theorem joined_failsAlike {join : Lit → Lit → StateM Graph Lit} {op : Bool → Bool → Bool}
    (hjoin : Graph.Computes join op) {encode : Int64 → EncodeM Encoded}
    (hencode : ∀ t, Steady e (encode t)) (ts : List Int64) {result : Lit}
    (hresult : ∀ s : Encoder, s.WellFormed → result ∈ s.encoding.graph) :
    FailsAlike e (joinTimes join encode ts result) := fun s s' h =>
  joinTimes_failsAlike hjoin ts hencode h (hresult s h.wf) (hresult s' h.wf')

theorem encodeLooping_failsAlike {loop : Loop} (hloop : loop ≠ .none) (f : Formula) (time : Int64) :
    FailsAlike e (encodeLooping bound loop offset f time) := by
  have hmeets := fun f t => @encodeLooping_meets bound loop offset hloop f t
  have hkeyok : ∀ f t acc, loopingOk acc bound loop f t =
      (⟨f, t, bound, loop, offset⟩ : Key).ok acc := fun f t acc => (if_neg hloop).symm
  have htruth : ∀ s : Encoder, s.WellFormed → Graph.truth ∈ s.encoding.graph := fun s wf =>
    wf.encoding.graph.truth_mem
  have hfalsity : ∀ s : Encoder, s.WellFormed → Graph.falsity ∈ s.encoding.graph := fun s wf =>
    wf.encoding.graph.falsity_mem
  induction f generalizing time with
  | atom a =>
    have hwhole := (hmeets (.atom a) time).congr (hkeyok _ _) fun _ _ => rfl
    rw [encodeLooping] at hwhole ⊢
    exact remember_failsAlike hwhole
      (ite_failsAlike (return_failsAlike _) fun _ => proposition_failsAlike a _)
  | unary op f ih =>
    have hwhole := (hmeets (.unary op f) time).congr (hkeyok _ _) fun _ _ => rfl
    have hpart := fun t => (hmeets f t).steady (ih t)
    rw [encodeLooping] at hwhole ⊢
    refine remember_failsAlike hwhole (ite_failsAlike (return_failsAlike _) fun _ => ?_)
    cases op with
    | not => exact fun _ _ h => ih time h
    | next => exact ih _
    | globally => exact joined_failsAlike Graph.and_computes hpart _ htruth
    | eventually => exact joined_failsAlike Graph.or_computes hpart _ hfalsity
    | previous | once | historically => exact return_failsAlike _
  | binary op f g ihf ihg =>
    have hwhole := (hmeets (.binary op f g) time).congr (hkeyok _ _) fun _ _ => rfl
    have hleft := fun t => (hmeets f t).steady (ihf t)
    have hright := fun t => (hmeets g t).steady (ihg t)
    rw [encodeLooping] at hwhole ⊢
    refine remember_failsAlike hwhole (ite_failsAlike (return_failsAlike _) fun _ => ?_)
    cases op with
    | untl =>
      exact fun s s' h => unfoldTimes_failsAlike Graph.or_computes Graph.and_computes _
        hright hleft h (hfalsity s h.wf) (hfalsity s' h.wf')
    | releases =>
      intro s s' h
      have hlast := hright (bound - 1)
      exact hlast.bind h (unfoldTimes_failsAlike Graph.and_computes Graph.or_computes _
        hright hleft (hlast.alike h) (hlast.mem h.wf h.grows) (hlast.mem h.wf' h.grows'))
    | and | or | xor | implies | iff => exact both_failsAlike (hleft time) (hright time)
    | since | reserved => exact return_failsAlike _

theorem straight_failsAlike (f : Formula) (time : Int64) :
    FailsAlike e (straight f time bound offset) :=
  ite_failsAlike (return_failsAlike _) fun _ => ite_failsAlike (return_failsAlike _) fun _ =>
    ite_failsAlike (return_failsAlike _) fun _ => encodeStraight_failsAlike f time

theorem looping_failsAlike (f : Formula) (time : Int64) (loop : Loop) :
    FailsAlike e (looping f time bound loop offset) := by
  refine ite_failsAlike (return_failsAlike _) fun _ => ite_failsAlike (return_failsAlike _) fun _ =>
    ite_failsAlike (return_failsAlike _) fun _ => ite_failsAlike (return_failsAlike _) fun h =>
    encodeLooping_failsAlike ?_ f time
  rintro rfl
  exact h rfl

end

section

variable {m : Machine} {e : Encoding} (wf : e.WellFormed) (hm : m.Over e)

omit wf hm in
theorem loopCondition_steady (source target : Int64) : Steady e (loopCondition source target) :=
  .of_encodes (fun _ wf _ => loopCondition_encodes wf source target)
    (ite_failsAlike (return_failsAlike _) fun _ _ _ _ => rfl)

omit wf hm in
theorem fairnessConstraint_failsAlike (k : Int64) (l : Loop) :
    FailsAlike e (fairnessConstraint m k l) :=
  ite_failsAlike (return_failsAlike _) fun _ => ite_failsAlike (return_failsAlike _) fun _ =>
    ite_failsAlike (return_failsAlike _) fun _ _ _ _ => rfl

include wf hm

theorem fairness_steady (fair : Bool) (k : Int64) (l : Loop) :
    Steady e (if fair then fairnessConstraint m k l else pure ⟨Graph.truth, none⟩) := by
  refine .of_encodes (fun s wfs hle => fairness_encodes fair wfs (hm.of_le wf hle) k l
    (.refl wfs)) ?_
  cases fair with
  | true => exact fairnessConstraint_failsAlike k l
  | false => exact return_failsAlike _

variable (f : Formula) (bound offset : Int64) (fair : Bool)

theorem onStraight_steady : Steady e (onStraight m f bound offset fair) :=
  .of_encodes (fun _ wfs hle => onStraight_encodes f bound offset fair wfs (hm.of_le wf hle))
    (ite_failsAlike (fairnessConstraint_failsAlike bound .none) fun _ => straight_failsAlike f 0)

theorem onLoop_steady (l : Loop) : Steady e (onLoop m f bound l offset fair) := by
  refine .of_encodes (fun _ wfs hle => onLoop_encodes f bound offset fair wfs (hm.of_le wf hle) l) ?_
  intro s s' h
  have hreturns := loopCondition_steady (e := e) (offset + bound) (offset + l.word)
  have hfairly := fairness_steady wf hm fair (offset + bound) ⟨offset + l.word⟩
  have hholds : Steady e (looping f 0 bound l offset) :=
    (looping_meets f 0 bound l offset).steady (looping_failsAlike f 0 l)
  rw [onLoop_eq]
  exact hreturns.bind h (hfairly.bind (hreturns.alike h)
    (hholds.bind (hfairly.alike (hreturns.alike h)) rfl))

theorem onAll_steady : Steady e (onAll m f bound offset fair) := by
  refine .of_encodes (fun _ wfs hle => onAll_encodes f bound offset fair wfs (hm.of_le wf hle)) ?_
  intro s s' h
  have hwithout := onStraight_steady wf hm f bound offset fair
  have hloops : Steady e (joinTimes Graph.or (fun l => onLoop m f bound ⟨l⟩ offset fair)
      (times 0 bound) Graph.falsity) := by
    refine .of_encodes (fun s wfs hle => joinTimes_encodes Graph.or_computes _ wfs (fun l _ s' hs =>
      onLoop_encodes_of_leads f bound offset fair wfs (hm.of_le wf hle) hs ⟨l⟩)
      (means_falsity wfs)) ?_
    exact joined_failsAlike Graph.or_computes (fun l => onLoop_steady wf hm f bound offset fair ⟨l⟩)
      _ fun s wfs => wfs.encoding.graph.falsity_mem
  exact hwithout.bind h (hloops.bind (hwithout.alike h) rfl)

theorem onPaths_failsAlike (l : Loop) : FailsAlike e (onPaths m f bound l offset fair) :=
  ite_failsAlike (onAll_steady wf hm f bound offset fair).fails fun _ =>
    ite_failsAlike (onStraight_steady wf hm f bound offset fair).fails fun _ =>
      (onLoop_steady wf hm f bound offset fair _).fails

end

end Encoder

end Lasso
