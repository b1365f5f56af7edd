import Lasso.Proofs.Bounded.Memory
import Lasso.Proofs.Machine.Repetition

/-! # An encoder and its recursion

An encoder is faithful if everything it remembers is what the recursion without a memory returns for
the key, now and in every later encoding.  Every encoding keeps it so and returns what the recursion
returns, with the same nodes and variables added; and if the recursion is run again later, it
returns the same and adds nothing.
-/

namespace Lasso

set_option autoImplicit false

/-- What the recursion without a memory makes of a key. -/
def Key.recursion (key : Key) : EncodeM Encoded :=
  if key.loop = .none then
    Encoder.encodeStraightBy Encoder.forget key.bound key.offset key.formula key.time
  else Encoder.encodeLoopingBy Encoder.forget key.bound key.loop key.offset key.formula key.time

/-- If something failed, it was not for a key that is bound to another expression. -/
def Consistent (error? : Option EncodeError) : Prop := ∀ key, error? ≠ some (.inconsistent key)

theorem consistent_none : Consistent none := fun _ => (Option.some_ne_none _).symm

theorem Consistent.or {err? err?' : Option EncodeError} (h : Consistent err?)
    (h' : Consistent err?') : Consistent (err?.or err?') := by
  cases err? with
  | some err => exact h
  | none => exact h'

theorem consistent_argument (err : ArgumentError) : Consistent (some (.argument err)) := by
  intro key hkey
  cases hkey

theorem consistent_unsupported (f : Formula) : Consistent (some (.unsupported f)) := by
  intro key hkey
  cases hkey

theorem consistent_condition (err : ConditionError Unit) : Consistent (some (.condition err)) := by
  intro key hkey
  cases hkey

theorem Encoded.eq_of_not_failed {r : Encoded} (h : ¬ r.failed = true) : r = ⟨r.expr, none⟩ := by
  obtain ⟨expr, error?⟩ := r
  cases error? with
  | none => rfl
  | some err => exact absurd rfl h

/-- The expression is there, and nothing was inconsistent. -/
structure Encoded.Sound (r : Encoded) (g : Graph) : Prop where
  mem : r.expr ∈ g
  consistent : Consistent r.error?

namespace Encoding

/-- A later encoding with the same variables. -/
structure Later (e e' : Encoding) : Prop where
  wf : e'.WellFormed
  grows : e ≤ e'
  vars : e'.vars = e.vars

theorem Later.refl {e : Encoding} (wf : e.WellFormed) : Later e e := ⟨wf, le_refl e, rfl⟩

theorem Later.trans {e₁ e₂ e₃ : Encoding} (h : Later e₁ e₂) (h' : Later e₂ e₃) : Later e₁ e₃ :=
  ⟨h'.wf, le_trans h.grows h'.grows, h'.vars.trans h.vars⟩

end Encoding

/-- From an encoding on, the recursion returns an expression for a key and adds nothing. -/
def Key.Recurs (key : Key) (e : Encoding) (l : Lit) : Prop :=
  ∀ t : Encoder, e.Later t.encoding →
    (key.recursion t).1 = ⟨l, none⟩ ∧ (key.recursion t).2.encoding = t.encoding

namespace Encoder

open Encoding

/-- Everything that is remembered can be made again. -/
structure Faithful (s : Encoder) : Prop where
  wf : s.encoding.WellFormed
  mem : ∀ (key : Key) (l : Lit), s.cache.entries[key]? = some l → l ∈ s.encoding.graph
  entries : ∀ (key : Key) (l : Lit), s.cache.entries[key]? = some l → key.Recurs s.encoding l

theorem Faithful.of_later {s t : Encoder} (hs : s.Faithful) (h : Later s.encoding t.encoding)
    (hentries : t.cache.entries = s.cache.entries) : t.Faithful where
  wf := h.wf
  mem key l hl := Graph.mem_of_le (graph_le h.grows) (hs.mem key l (hentries ▸ hl))
  entries key l hl u hu := hs.entries key l (hentries ▸ hl) u (h.trans hu)

/-- From `s`, the first construction is the second with a memory: it keeps the encoder faithful and
returns what the second does, which can be made again. -/
structure Mirrors {α : Type} (There : α → Graph → Prop) (x y : EncodeM α) (s : Encoder) :
    Prop where
  faithful : (x s).2.Faithful
  later : Later s.encoding (x s).2.encoding
  there : There (x s).1 (x s).2.encoding.graph
  same : ∀ t : Encoder, t.encoding = s.encoding →
    (y t).1 = (x s).1 ∧ (y t).2.encoding = (x s).2.encoding
  again : ∀ t : Encoder, Later (x s).2.encoding t.encoding →
    (y t).1 = (x s).1 ∧ (y t).2.encoding = t.encoding

section

variable {α β : Type} {P : α → Graph → Prop} {Q : β → Graph → Prop} {s : Encoder}

theorem Mirrors.mem {x y : EncodeM α} (h : Mirrors P x y s) {l : Lit}
    (hl : l ∈ s.encoding.graph) : l ∈ (x s).2.encoding.graph :=
  Graph.mem_of_le (graph_le h.later.grows) hl

theorem Mirrors.pure (hs : s.Faithful) {a : α} (h : P a s.encoding.graph) :
    Mirrors P (Pure.pure a) (Pure.pure a) s :=
  ⟨hs, .refl hs.wf, h, fun _ ht => ⟨rfl, ht⟩, fun _ _ => ⟨rfl, rfl⟩⟩

theorem Mirrors.bind {x y : EncodeM α} {k k' : α → EncodeM β} (hx : Mirrors P x y s)
    (hk : Mirrors Q (k (x s).1) (k' (x s).1) (x s).2) : Mirrors Q (x >>= k) (y >>= k') s where
  faithful := hk.faithful
  later := hx.later.trans hk.later
  there := hk.there
  same t ht := by
    obtain ⟨hvalue, hencoding⟩ := hx.same t ht
    rw [bind_apply, hvalue]
    exact hk.same _ hencoding
  again t ht := by
    obtain ⟨hvalue, hencoding⟩ := hx.again t (hk.later.trans ht)
    rw [bind_apply, hvalue]
    obtain ⟨hvalue', hencoding'⟩ := hk.again _ (hencoding.symm ▸ ht)
    exact ⟨hvalue', hencoding'.trans hencoding⟩

theorem Mirrors.congr {x y x' y' : EncodeM α} (hs : s.Faithful) (h : Mirrors P x y s)
    (hx : x' s = x s) (hy : ∀ t : Encoder, Later s.encoding t.encoding → y' t = y t) :
    Mirrors P x' y' s where
  faithful := hx ▸ h.faithful
  later := hx ▸ h.later
  there := hx ▸ h.there
  same t ht := by
    rw [hx, hy t (ht.symm ▸ .refl hs.wf)]
    exact h.same t ht
  again t ht := by
    rw [hx] at ht ⊢
    rw [hy t (h.later.trans ht)]
    exact h.again t ht

theorem onTable_mirrors {x : StateM Table α} {a : α} (hx : ∀ t, (x t).1 = a) (hs : s.Faithful) :
    Mirrors (fun r _ => r = a) (onTable x) (onTable x) s where
  faithful := hs.of_later (.refl hs.wf) rfl
  later := .refl hs.wf
  there := hx _
  same _ ht := ⟨(hx _).trans (hx _).symm, ht⟩
  again _ _ := ⟨(hx _).trans (hx _).symm, rfl⟩

theorem onEncoding_mirrors {c : StateM Encoding α} (hs : s.Faithful)
    (hc : Reproduces P c s.encoding) : Mirrors P (onEncoding c) (onEncoding c) s where
  faithful := hs.of_later ⟨hc.wf, hc.grows, hc.vars⟩ rfl
  later := ⟨hc.wf, hc.grows, hc.vars⟩
  there := hc.there
  same t ht := by
    rw [onEncoding_eq, onEncoding_eq, ht]
    exact ⟨rfl, rfl⟩
  again t ht := by
    rw [onEncoding_eq, hc.again t.encoding ht.wf ht.grows (ht.vars.trans hc.vars)]
    exact ⟨rfl, rfl⟩

theorem onGraph_mirrors {join : Lit → Lit → StateM Graph Lit} (hjoin : Graph.Repeatable join)
    (hs : s.Faithful) {a b : Lit} (ha : a ∈ s.encoding.graph) (hb : b ∈ s.encoding.graph) :
    Mirrors (fun l g => l ∈ g) (onGraph (join a b)) (onGraph (join a b)) s :=
  onEncoding_mirrors hs (join_remakes hs.wf hjoin ha hb)

end

/-- One construction mirrors another in every encoder that follows an encoding. -/
def Mirror (e : Encoding) (x y : EncodeM Encoded) : Prop :=
  ∀ s : Encoder, s.Faithful → e ≤ s.encoding → Mirrors Encoded.Sound x y s

section

variable {e : Encoding} {s : Encoder} {x y x' y' : EncodeM Encoded}

theorem return_mirror {r : Encoded} (h : ∀ s : Encoder, s.Faithful → r.Sound s.encoding.graph) :
    Mirror e (return r) (return r) := fun s hs _ => .pure hs (h s hs)

theorem falsity_mirror : Mirror e (return ⟨Graph.falsity, none⟩) (return ⟨Graph.falsity, none⟩) :=
  return_mirror fun _ hs => ⟨hs.wf.graph.falsity_mem, consistent_none⟩

theorem truth_mirror : Mirror e (return ⟨Graph.truth, none⟩) (return ⟨Graph.truth, none⟩) :=
  return_mirror fun _ hs => ⟨hs.wf.graph.truth_mem, consistent_none⟩

theorem fail_mirror {err : EncodeError} (h : Consistent (some err)) :
    Mirror e (return .fail err) (return .fail err) :=
  return_mirror fun _ hs => ⟨hs.wf.graph.falsity_mem, h⟩

theorem ite_mirror {c : Prop} [Decidable c] (hx : c → Mirror e x x') (hy : ¬ c → Mirror e y y') :
    Mirror e (if c then x else y) (if c then x' else y') := by
  by_cases hc : c
  · rw [if_pos hc, if_pos hc]
    exact hx hc
  · rw [if_neg hc, if_neg hc]
    exact hy hc

theorem refuse_mirror {c : Prop} [Decidable c] {err : ArgumentError} (hx : ¬ c → Mirror e x y) :
    Mirror e (if c then return .fail (.argument err) else x)
      (if c then return .fail (.argument err) else y) :=
  ite_mirror (fun _ => fail_mirror (consistent_argument err)) hx

theorem Mirror.not (hx : Mirror e x y) :
    Mirror e (do return (← x).not) (do return (← y).not) := by
  intro s hs hle
  have h := hx s hs hle
  exact h.bind (.pure h.faithful ⟨h.there.mem, h.there.consistent⟩)

theorem Mirrors.bind_unless {k k' : Encoded → EncodeM Encoded} (hx : Mirrors Encoded.Sound x y s)
    (hk : Mirrors Encoded.Sound (k (x s).1) (k' (x s).1) (x s).2) :
    Mirrors Encoded.Sound (x >>= fun a => if a.failed then return a else k a)
      (y >>= fun a => if a.failed then return a else k' a) s := by
  refine hx.bind ?_
  by_cases hfailed : (x s).1.failed = true
  · rw [if_pos hfailed, if_pos hfailed]
    exact .pure hx.faithful hx.there
  · rw [if_neg hfailed, if_neg hfailed]
    exact hk

section

variable {join inner : Lit → Lit → StateM Graph Lit} (hjoin : Graph.Repeatable join)

include hjoin

theorem joined_mirrors (hs : s.Faithful) {a b : Lit} (ha : a ∈ s.encoding.graph)
    (hb : b ∈ s.encoding.graph) {error? : Option EncodeError} (herror : Consistent error?) :
    Mirrors Encoded.Sound (do return ⟨← onGraph (join a b), error?⟩)
      (do return ⟨← onGraph (join a b), error?⟩) s := by
  have h := onGraph_mirrors hjoin hs ha hb
  exact h.bind (.pure h.faithful ⟨h.there, herror⟩)

theorem both_mirror (hx : Mirror e x y) (hx' : Mirror e x' y') :
    Mirror e (both join x x') (both join y y') := by
  intro s hs hle
  have h := hx s hs hle
  have h' := hx' _ h.faithful (le_trans hle h.later.grows)
  refine h.bind_unless (h'.bind_unless ?_)
  exact joined_mirrors hjoin h'.faithful (h'.mem h.there.mem) h'.there.mem consistent_none

/-- Two parts that are both made, even if the first fails. -/
theorem pair_mirror (hx : Mirror e x y) (hx' : Mirror e x' y') :
    Mirror e
      (do
        let now ← x
        let later ← x'
        return ⟨← onGraph (join now.expr later.expr), now.error?.or later.error?⟩)
      (do
        let now ← y
        let later ← y'
        return ⟨← onGraph (join now.expr later.expr), now.error?.or later.error?⟩) := by
  intro s hs hle
  have h := hx s hs hle
  have h' := hx' _ h.faithful (le_trans hle h.later.grows)
  refine h.bind (h'.bind ?_)
  exact joined_mirrors hjoin h'.faithful (h'.mem h.there.mem) h'.there.mem
    (h.there.consistent.or h'.there.consistent)

theorem triple_mirror (hinner : Graph.Repeatable inner)
    {z z' : EncodeM Encoded} (hz : Mirror e z z') (hx : Mirror e x y) (hx' : Mirror e x' y') :
    Mirror e
      (do
        let goal ← z
        let now ← x
        let later ← x'
        let wait ← onGraph (inner now.expr later.expr)
        return ⟨← onGraph (join goal.expr wait), (goal.error?.or now.error?).or later.error?⟩)
      (do
        let goal ← z'
        let now ← y
        let later ← y'
        let wait ← onGraph (inner now.expr later.expr)
        return ⟨← onGraph (join goal.expr wait),
          (goal.error?.or now.error?).or later.error?⟩) := by
  intro s hs hle
  have hgoal := hz s hs hle
  have hnow := hx _ hgoal.faithful (le_trans hle hgoal.later.grows)
  have hlater := hx' _ hnow.faithful (le_trans hle (hgoal.later.trans hnow.later).grows)
  have hwait := onGraph_mirrors hinner hlater.faithful (hlater.mem hnow.there.mem)
    hlater.there.mem
  refine hgoal.bind (hnow.bind (hlater.bind (hwait.bind ?_)))
  exact joined_mirrors hjoin hwait.faithful
    (hwait.mem (hlater.mem (hnow.mem hgoal.there.mem))) hwait.there
    ((hgoal.there.consistent.or hnow.there.consistent).or hlater.there.consistent)

theorem joinTimes_mirrors {encode encode' : Int64 → EncodeM Encoded} (ts : List Int64)
    (hencode : ∀ t ∈ ts, Mirror e (encode t) (encode' t)) (hs : s.Faithful) (hle : e ≤ s.encoding)
    {result : Lit} (hresult : result ∈ s.encoding.graph) :
    Mirrors Encoded.Sound (joinTimes join encode ts result)
      (joinTimes join encode' ts result) s := by
  induction ts generalizing s result with
  | nil => exact .pure hs ⟨hresult, consistent_none⟩
  | cons t ts ih =>
    have hnow := hencode t List.mem_cons_self s hs hle
    have hjoined := onGraph_mirrors hjoin hnow.faithful (hnow.mem hresult) hnow.there.mem
    refine hnow.bind_unless (hjoined.bind ?_)
    exact ih (fun u hu => hencode u (List.mem_cons_of_mem t hu)) hjoined.faithful
      (le_trans hle (hnow.later.trans hjoined.later).grows) hjoined.there

theorem unfoldTimes_mirrors (hinner : Graph.Repeatable inner)
    {goal goal' wait wait' : Int64 → EncodeM Encoded} (ts : List Int64)
    (hgoal : ∀ t ∈ ts, Mirror e (goal t) (goal' t)) (hwait : ∀ t ∈ ts, Mirror e (wait t) (wait' t))
    (hs : s.Faithful) (hle : e ≤ s.encoding) {result : Lit} (hresult : result ∈ s.encoding.graph) :
    Mirrors Encoded.Sound (unfoldTimes join inner goal wait ts result)
      (unfoldTimes join inner goal' wait' ts result) s := by
  induction ts generalizing s result with
  | nil => exact .pure hs ⟨hresult, consistent_none⟩
  | cons t ts ih =>
    have hq := hgoal t List.mem_cons_self s hs hle
    have hp := hwait t List.mem_cons_self _ hq.faithful (le_trans hle hq.later.grows)
    have herror := hq.there.consistent.or hp.there.consistent
    refine hq.bind (hp.bind ?_)
    cases he : (goal t s).1.error?.or (wait t (goal t s).2).1.error? with
    | some err =>
      rw [he] at herror
      exact .pure hp.faithful ⟨hp.faithful.wf.graph.falsity_mem, herror⟩
    | none =>
      have hlater := onGraph_mirrors hinner hp.faithful hp.there.mem
        (hp.mem (hq.mem hresult))
      have hnow := onGraph_mirrors hjoin hlater.faithful (hlater.mem (hp.mem hq.there.mem))
        hlater.there
      refine hlater.bind (hnow.bind ?_)
      exact ih (fun u hu => hgoal u (List.mem_cons_of_mem t hu))
        (fun u hu => hwait u (List.mem_cons_of_mem t hu)) hnow.faithful
        (le_trans hle ((hq.later.trans hp.later).trans (hlater.later.trans hnow.later)).grows)
        hnow.there

end

theorem proposition_mirror (p : Expr) (time : Int64) :
    Mirror e (proposition p time) (proposition p time) := by
  intro s hs _
  have hcondition := onEncoding_mirrors hs (condition_reproduces hs.wf p)
  refine hcondition.bind ?_
  have hthere := hcondition.there
  cases hr : (onEncoding (condition false p).run s).1 with
  | error err =>
    exact .pure hcondition.faithful
      ⟨hcondition.faithful.wf.graph.falsity_mem, consistent_condition err⟩
  | ok l =>
    rw [hr] at hthere
    have htimed := onEncoding_mirrors hcondition.faithful
      (instantiate_remakes hcondition.faithful.wf hthere time.toUInt64)
    exact htimed.bind (.pure htimed.faithful ⟨htimed.there, consistent_none⟩)

theorem Mirrors.of_outcome {s' u : Encoder} (h : Mirrors Encoded.Sound x y s')
    (hs : s'.encoding = s.encoding) (heq : x' s = ((x s').1, u))
    (hencoding : u.encoding = (x s').2.encoding) (hu : u.Faithful) :
    Mirrors Encoded.Sound x' y s where
  faithful := heq ▸ hu
  later := by
    rw [heq, ← hs]
    exact hencoding ▸ h.later
  there := by
    rw [heq]
    exact hencoding ▸ h.there
  same t ht := by
    rw [heq]
    exact hencoding ▸ h.same t (ht.trans hs.symm)
  again t ht := by
    rw [heq] at ht ⊢
    exact h.again t (hencoding ▸ ht)

theorem Faithful.insert (hs : s.Faithful) {key : Key} {l : Lit} (hl : l ∈ s.encoding.graph)
    (h : key.Recurs s.encoding l) :
    Faithful { s with cache := { s.cache with entries := s.cache.entries.insert key l } } := by
  have hget : ∀ (k : Key) (l' : Lit), (s.cache.entries.insert key l)[k]? = some l' →
      (key = k ∧ l = l') ∨ s.cache.entries[k]? = some l' := by
    intro k l' hk
    rw [Std.HashMap.getElem?_insert] at hk
    split at hk
    · rename_i hkey
      exact .inl ⟨eq_of_beq hkey, Option.some.inj hk⟩
    · exact .inr hk
  refine ⟨hs.wf, fun k l' hk => ?_, fun k l' hk => ?_⟩
  · obtain ⟨rfl, rfl⟩ | hold := hget k l' hk
    · exact hl
    · exact hs.mem k l' hold
  · obtain ⟨rfl, rfl⟩ | hold := hget k l' hk
    · exact h
    · exact hs.entries k l' hold

/-- An encoder after it looked for a key in vain. -/
def missed (s : Encoder) : Encoder :=
  { s with cache := { s.cache with misses := s.cache.misses + 1 } }

theorem remember_mirrors_of_some (hs : s.Faithful) {key : Key} {l : Lit}
    (hkey : s.cache.entries[key]? = some l) :
    Mirrors Encoded.Sound (remember key x) key.recursion s := by
  have heq := remember_eq key x s
  rw [hkey] at heq
  have hlater : Later s.encoding (remember key x s).2.encoding := heq ▸ Later.refl hs.wf
  refine ⟨hs.of_later hlater (heq ▸ rfl), hlater, ?_, fun t ht => ?_, fun t ht => ?_⟩
  · exact heq ▸ ⟨hs.mem key l hkey, consistent_none⟩
  · obtain ⟨hvalue, hencoding⟩ := hs.entries key l hkey t (ht.symm ▸ .refl hs.wf)
    rw [heq]
    exact ⟨hvalue, hencoding.trans ht⟩
  · rw [heq]
    exact hs.entries key l hkey t (hlater.trans ht)

theorem remember_mirrors_of_none {key : Key} (hkey : s.cache.entries[key]? = none)
    (h : Mirrors Encoded.Sound x key.recursion s.missed) :
    Mirrors Encoded.Sound (remember key x) key.recursion s := by
  have hmissed : (⟨s.encoding, s.table, ⟨s.cache.entries, s.cache.hits, s.cache.misses + 1⟩⟩ :
    Encoder) = s.missed := rfl
  have heq := remember_eq key x s
  rw [hkey] at heq
  dsimp only at heq
  rw [hmissed] at heq
  by_cases hfailed : (x s.missed).1.failed = true
  · rw [if_pos hfailed] at heq
    exact h.of_outcome rfl heq rfl h.faithful
  rw [if_neg hfailed] at heq
  have hmade := Encoded.eq_of_not_failed hfailed
  cases hbound : (x s.missed).2.cache.entries[key]? with
  | some l =>
    -- the key was bound on the way, to what the recursion returns
    have hl := (h.faithful.entries key l hbound _ (.refl h.faithful.wf)).1
    rw [(h.again _ (.refl h.faithful.wf)).1] at hl
    have hexpr : l = (x s.missed).1.expr := by rw [hl]
    rw [hbound] at heq
    dsimp only at heq
    rw [if_pos hexpr] at heq
    exact h.of_outcome rfl heq rfl h.faithful
  | none =>
    have hrecurs : key.Recurs (x s.missed).2.encoding (x s.missed).1.expr := fun t ht =>
      hmade ▸ h.again t ht
    rw [hbound] at heq
    exact h.of_outcome rfl heq rfl (h.faithful.insert h.there.mem hrecurs)

/-- An encoding may be remembered for the key that the recursion makes it from. -/
theorem remember_mirror {key : Key} (hy : key.recursion = y) (hbody : Mirror e x y) :
    Mirror e (remember key x) y := by
  intro s hs hle
  subst hy
  cases hkey : s.cache.entries[key]? with
  | some l => exact remember_mirrors_of_some hs hkey
  | none => exact remember_mirrors_of_none hkey (hbody _ (hs.of_later (.refl hs.wf) rfl) hle)

end

end Encoder

end Lasso
