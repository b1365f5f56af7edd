import Lasso.Proofs.Machine.Condition

/-! # From conditions to expressions

Converting a condition keeps an encoding well-formed, and the expression it makes denotes what the
condition means.  Where the next state is not permitted the conversion succeeds on conditions only,
and on all of them.
-/

namespace Lasso

set_option autoImplicit false

/-- What the arguments of an operator are read in. -/
def Connective.view : Connective → View → View
  | .next, V => V.advance
  | _, V => V

/-- What is wrong with a number of arguments, where the next state is not permitted. -/
def Connective.fault? : Connective → Nat → Option Malformed
  | .next, 1 => some .nextNotPermitted
  | c, n => if c.takes true n then none else some (c.arity?.elim .noArguments .argumentCount)

/-- What an operator makes of as many arguments as it takes. -/
def Connective.join : Connective → List Lit → StateM Graph Lit
  | .not, [a] => return a.not
  | .xor, [a, b] => Graph.xor a b
  | .implies, [a, b] => Graph.implies a b
  | .iff, [a, b] => Graph.iff a b
  | .ite, [a, b, c] => Graph.ite a b c
  | .and, ls => Graph.all ls
  | .or, ls => Graph.any ls
  | _, _ => return Graph.falsity

namespace Encoding

variable {α ε : Type}

/-- From `e`, a construction that may fail made an expression for a function of views. -/
structure Attempts (e : Encoding) (r : Except ε Lit × Encoding) (φ : View → Bool) : Prop where
  wf : r.2.WellFormed
  grows : e ≤ r.2
  vars : r.2.vars = e.vars
  denotes : ∀ l, r.1 = .ok l → r.2.Denotes l φ

theorem Attempts.of_builds {e : Encoding} {r : Lit × Encoding} {φ : View → Bool}
    (h : e.Builds r φ) : e.Attempts ((.ok r.1, r.2) : Except ε Lit × Encoding) φ :=
  ⟨h.wf, h.grows, h.vars, fun l hl => by cases hl; exact h.denotes⟩

theorem Attempts.of_error {e : Encoding} (wf : e.WellFormed) (err : ε) (φ : View → Bool) :
    e.Attempts ((.error err, e) : Except ε Lit × Encoding) φ :=
  ⟨wf, le_refl e, rfl, fun l hl => by cases hl⟩

/-- Several expressions have the values of a function of views. -/
structure DenotesAll (e : Encoding) (ls : List Lit) (Φ : View → List Bool) : Prop where
  mem : ∀ l ∈ ls, l ∈ e.graph
  eval : ∀ ρ V, e.Agrees ρ V → ls.map (e.graph.eval ρ) = Φ V

theorem attempt_attempts {e : Encoding} (wf : e.WellFormed) {ls : List Lit} {Φ : View → List Bool}
    (hls : e.DenotesAll ls Φ) {m : StateM Graph Lit} (op : List Bool → Bool)
    (hm : e.graph.Builds (m e.graph) (fun ρ => op (ls.map (e.graph.eval ρ)))) :
    e.Attempts ((attempt m : Attempt ε Lit).run e) (fun V => op (Φ V)) := by
  have hgrow := le_of_graph_le (e := e) hm.grows
  refine Attempts.of_builds (r := onGraph m e)
    ⟨wf.of_graph hm.wf hm.grows, hgrow, rfl, hm.mem, fun ρ V hV => ?_⟩
  rw [onGraph_eq, hm.eval, hls.eval ρ V (hV.of_le wf hgrow)]

theorem connect_next_eq (p : Bool) (a : Lit) (e : Encoding) :
    (connect .next p [a]).run e =
      if p then
        match (shift a e).1 with
        | .ok l => (.ok l, (shift a e).2)
        | .error err => (.error (.shift err), (shift a e).2)
      else (.error .nextNotPermitted, e) := by
  cases p with
  | false => rfl
  | true =>
    change ((match (shift a e).1 with
      | .ok l => (return l : Attempt Malformed Lit)
      | .error err => throw (Malformed.shift err)).run (shift a e).2) = _
    cases (shift a e).1 <;> rfl

/-- An operator applied to arguments denotes its value at theirs. -/
theorem connect_attempts {e : Encoding} (wf : e.WellFormed) {ls : List Lit}
    {Φ : View → List Bool} (hls : e.DenotesAll ls Φ) (c : Connective) (p : Bool) :
    e.Attempts ((connect c p ls).run e) (fun V => c.apply (Φ (c.view V))) := by
  -- with a wrong number of arguments an operator fails and adds nothing
  have wrong : ∀ reason : Malformed, e.Attempts
      ((throw reason : Attempt Malformed Lit).run e) (fun V => c.apply (Φ (c.view V))) :=
    fun reason => Attempts.of_error wf reason _
  have mem := hls.mem
  cases c with
  | not =>
    match ls with
    | [a] =>
      have ha : e.Denotes a.not (fun V => Connective.not.apply (Φ V)) :=
        ⟨mem a (by simp), fun ρ V hV => by rw [Graph.eval_not, ← hls.eval ρ V hV]; rfl⟩
      exact Attempts.of_builds (Builds.of_denotes wf ha)
    | [] => exact wrong _
    | _ :: _ :: _ => exact wrong _
  | next =>
    match ls with
    | [a] =>
      rw [connect_next_eq]
      split
      · have ha : e.Denotes a (fun V => Connective.next.apply (Φ V)) :=
          ⟨mem a (by simp), fun ρ V hV => by rw [← hls.eval ρ V hV]; rfl⟩
        obtain ⟨hwf, hgrow, hvars⟩ := shift_grows wf ha.mem
        have hshift := fun m => shift_denotes wf (m := m) ha
        cases hr : (shift a e).1 with
        | ok l => exact ⟨hwf, hgrow, hvars, fun m hm => by cases hm; exact hshift l hr⟩
        | error err => exact ⟨hwf, hgrow, hvars, fun m hm => by cases hm⟩
      · exact wrong _
    | [] => exact wrong _
    | _ :: _ :: _ => exact wrong _
  | xor =>
    match ls with
    | [a, b] =>
      exact attempt_attempts wf hls Connective.xor.apply
        (Graph.xor_computes wf.graph (mem a (by simp)) (mem b (by simp)))
    | [] => exact wrong _
    | [_] => exact wrong _
    | _ :: _ :: _ :: _ => exact wrong _
  | implies =>
    match ls with
    | [a, b] =>
      exact attempt_attempts wf hls Connective.implies.apply
        (Graph.implies_computes wf.graph (mem a (by simp)) (mem b (by simp)))
    | [] => exact wrong _
    | [_] => exact wrong _
    | _ :: _ :: _ :: _ => exact wrong _
  | iff =>
    match ls with
    | [a, b] =>
      exact attempt_attempts wf hls Connective.iff.apply
        (Graph.iff_computes wf.graph (mem a (by simp)) (mem b (by simp)))
    | [] => exact wrong _
    | [_] => exact wrong _
    | _ :: _ :: _ :: _ => exact wrong _
  | ite =>
    match ls with
    | [a, b, c] =>
      exact attempt_attempts wf hls Connective.ite.apply
        (Graph.ite_builds wf.graph (mem a (by simp)) (mem b (by simp)) (mem c (by simp)))
    | [] => exact wrong _
    | [_] => exact wrong _
    | [_, _] => exact wrong _
    | _ :: _ :: _ :: _ :: _ => exact wrong _
  | and =>
    match ls with
    | [] => exact wrong _
    | a :: as =>
      refine attempt_attempts wf hls Connective.and.apply ?_
      exact (Graph.all_builds (a :: as) wf.graph mem).congr fun ρ => by simp [Connective.apply]
  | or =>
    match ls with
    | [] => exact wrong _
    | a :: as =>
      refine attempt_attempts wf hls Connective.or.apply ?_
      exact (Graph.any_builds (a :: as) wf.graph mem).congr fun ρ => by simp [Connective.apply]

/-- The run of an operator without next forms that are permitted: a fault changes nothing, and
otherwise arguments are joined in the graph. -/
theorem connect_run {p : Bool} {e : Encoding} : (c : Connective) → (c = .next → p = false) →
    (ls : List Lit) → (connect c p ls).run e =
      match c.fault? ls.length with
      | some reason => (.error reason, e)
      | none => (.ok (onGraph (c.join ls) e).1, (onGraph (c.join ls) e).2)
  | .next, hp, [_] => by
    rw [hp rfl]
    rfl
  | .next, _, [] | .next, _, _ :: _ :: _ => rfl
  | .not, _, [] | .not, _, [_] | .not, _, _ :: _ :: _ => rfl
  | .xor, _, [] | .xor, _, [_] | .xor, _, [_, _] | .xor, _, _ :: _ :: _ :: _ => rfl
  | .implies, _, [] | .implies, _, [_] | .implies, _, [_, _]
  | .implies, _, _ :: _ :: _ :: _ => rfl
  | .iff, _, [] | .iff, _, [_] | .iff, _, [_, _] | .iff, _, _ :: _ :: _ :: _ => rfl
  | .ite, _, [] | .ite, _, [_] | .ite, _, [_, _] | .ite, _, [_, _, _]
  | .ite, _, _ :: _ :: _ :: _ :: _ => rfl
  | .and, _, [] | .and, _, _ :: _ => rfl
  | .or, _, [] | .or, _, _ :: _ => rfl

theorem fault?_eq_none_iff {c : Connective} (hc : c ≠ .next) (p : Bool) (n : Nat) :
    c.fault? n = none ↔ c.takes p n := by
  have hfault : c.fault? n = none ↔ c.takes true n := by
    rw [Connective.fault?]
    · cases c.takes true n <;> simp
    · exact fun h => absurd h hc
  cases c with
  | next => exact absurd rfl hc
  | _ => exact hfault

theorem takes_of_connect {e : Encoding} {p : Bool} {c : Connective} {ls : List Lit} {l : Lit}
    (h : ((connect c p ls).run e).1 = .ok l) : c.takes p ls.length := by
  by_cases hc : c = .next
  · subst hc
    match ls with
    | [a] =>
      cases p with
      | true => rfl
      | false => cases h
    | [] => cases h
    | _ :: _ :: _ => cases h
  · rw [connect_run c (fun hnext => absurd hnext hc)] at h
    rw [← fault?_eq_none_iff hc]
    cases hfault : c.fault? ls.length with
    | none => rfl
    | some reason =>
      rw [hfault] at h
      cases h

theorem exists_connect {c : Connective} {ls : List Lit} (h : c.takes false ls.length)
    (e : Encoding) : ∃ l, ((connect c false ls).run e).1 = .ok l := by
  have hc : c ≠ .next := by
    rintro rfl
    cases h
  rw [connect_run c fun _ => rfl, (fault?_eq_none_iff hc false _).2 h]
  exact ⟨_, rfl⟩

theorem run_bind {β γ : Type} (x : Attempt ε β) (f : β → Attempt ε γ) (e : Encoding) :
    (x >>= f).run e = match x.run e with
      | (.ok b, e₁) => (f b).run e₁
      | (.error err, e₁) => (.error err, e₁) := by
  rw [ExceptT.run_bind]
  change (match (x.run e).1 with
    | .ok b => (f b).run
    | .error err => (pure (.error err) : StateM Encoding (Except ε γ))) (x.run e).2 = _
  cases hr : x.run e with
  | mk r e₁ => cases r <;> rfl

theorem ok_of_mapError {δ β : Type} {blame : ε → δ} {r : Except ε β} {b : β}
    (h : r.mapError blame = .ok b) : r = .ok b := by
  cases r with
  | ok _ => exact congrArg Except.ok (Except.ok.inj h)
  | error _ => cases h

theorem condition_symbol_eq (p : Bool) (note : α) (name : String) (e : Encoding) :
    (condition p (.symbol note name)).run e =
      (match e.conditionName? name with
        | some l => .ok l
        | none => .error (.unknownVariable (.symbol note name)), e) := by
  rw [condition]
  change (match e.conditionName? name with
    | some l => (return l : Attempt (ConditionError α) Lit)
    | none => throw (ConditionError.unknownVariable (.symbol note name))).run e = _
  cases e.conditionName? name <;> rfl

theorem condition_list_eq (p : Bool) (note note' : α) (name : String) (args : List (SExpr α))
    (e : Encoding) :
    (condition p (.list note (.symbol note' name :: args))).run e =
      match (conditions p args).run e with
      | (.error err, e₁) => (.error err, e₁)
      | (.ok ls, e₁) =>
        match Connective.ofName? name with
        | none =>
          (.error (.malformed (.list note (.symbol note' name :: args)) (.unknownOperator name)), e₁)
        | some c =>
          (((connect c p ls).run e₁).1.mapError
            (.malformed (.list note (.symbol note' name :: args))), ((connect c p ls).run e₁).2) := by
  rw [condition, run_bind]
  cases (conditions p args).run e with
  | mk r e₁ =>
    cases r with
    | error err => rfl
    | ok ls => cases Connective.ofName? name <;> rfl

theorem condition_nil_eq (p : Bool) (note : α) (e : Encoding) :
    (condition p (.list note [])).run e = (.error (.malformed (.list note []) .noOperator), e) := by
  rw [condition]
  · rfl
  · simp

theorem condition_nested_eq (p : Bool) (note note' : α) (items args : List (SExpr α))
    (e : Encoding) : (condition p (.list note (.list note' items :: args))).run e =
      (.error (.malformed (.list note (.list note' items :: args)) .noOperator), e) := by
  rw [condition]
  · rfl
  · simp

theorem conditions_cons_eq (p : Bool) (x : SExpr α) (xs : List (SExpr α)) (e : Encoding) :
    (conditions p (x :: xs)).run e =
      match (condition p x).run e with
      | (.error err, e₁) => (.error err, e₁)
      | (.ok l, e₁) =>
        (((conditions p xs).run e₁).1.map (l :: ·), ((conditions p xs).run e₁).2) := by
  rw [conditions, run_bind]
  cases (condition p x).run e with
  | mk r e₁ =>
    cases r with
    | error err => rfl
    | ok l =>
      dsimp only
      rw [run_bind]
      cases (conditions p xs).run e₁ with
      | mk r e₂ => cases r <;> rfl

mutual

theorem condition_attempts {e : Encoding} (wf : e.WellFormed) (p : Bool) : (x : SExpr α) →
    e.Attempts ((condition p x).run e) (fun V => e.conditionValue V.now V.next x) ∧
      (∀ l, ((condition p x).run e).1 = .ok l → e.accepts p x)
  | .symbol note name => by
    rw [condition_symbol_eq, accepts]
    cases hname : e.conditionName? name with
    | none => exact ⟨Attempts.of_error wf _ _, fun l hl => by cases hl⟩
    | some m =>
      have hm := (conditionName?_denotes wf hname).congr (ψ := fun V =>
        e.conditionValue V.now V.next (.symbol note name)) fun V => by rw [conditionValue]
      exact ⟨Attempts.of_builds (Builds.of_denotes wf hm), fun _ _ => rfl⟩
  | .list note (.symbol note' name :: args) => by
    obtain ⟨hwf, hgrow, hvars, hargs⟩ := conditions_attempts wf p args
    rw [condition_list_eq, accepts]
    cases hr : (conditions p args).run e with
    | mk r e₁ =>
      rw [hr] at hwf hgrow hvars hargs
      cases r with
      | error err => exact ⟨⟨hwf, hgrow, hvars, fun l hl => by cases hl⟩, fun l hl => by cases hl⟩
      | ok ls =>
        obtain ⟨hls, hlen, hacc⟩ := hargs ls rfl
        cases hc : Connective.ofName? name with
        | none => exact ⟨⟨hwf, hgrow, hvars, fun l hl => by cases hl⟩, fun l hl => by cases hl⟩
        | some c =>
          have h := connect_attempts hwf hls c p
          refine ⟨⟨h.wf, le_trans hgrow h.grows, h.vars.trans hvars, fun l hl => ?_⟩, fun l hl => ?_⟩
          · refine (h.denotes l (ok_of_mapError hl)).congr fun V => ?_
            rw [conditionValue, hc]
            cases c <;> rfl
          · rw [hacc, Bool.true_and, Option.elim_some, ← hlen]
            exact takes_of_connect (ok_of_mapError hl)
  | .list note [] => by
    rw [condition_nil_eq]
    exact ⟨Attempts.of_error wf _ _, fun l hl => by cases hl⟩
  | .list note (.list _ _ :: _) => by
    rw [condition_nested_eq]
    exact ⟨Attempts.of_error wf _ _, fun l hl => by cases hl⟩

theorem conditions_attempts {e : Encoding} (wf : e.WellFormed) (p : Bool) :
    (xs : List (SExpr α)) →
    ((conditions p xs).run e).2.WellFormed ∧ e ≤ ((conditions p xs).run e).2 ∧
      ((conditions p xs).run e).2.vars = e.vars ∧
      ∀ ls, ((conditions p xs).run e).1 = .ok ls →
        ((conditions p xs).run e).2.DenotesAll ls (fun V => e.conditionValues V.now V.next xs) ∧
        ls.length = xs.length ∧ e.acceptsAll p xs
  | [] => by
    rw [conditions]
    refine ⟨wf, le_refl e, rfl, fun ls hls => ?_⟩
    cases hls
    exact ⟨⟨by simp, fun ρ V hV => by rw [conditionValues]; rfl⟩, rfl, by rw [acceptsAll]⟩
  | x :: xs => by
    obtain ⟨hx, hacc⟩ := condition_attempts wf p x
    rw [conditions_cons_eq]
    cases hr : (condition p x).run e with
    | mk r e₁ =>
      rw [hr] at hx hacc
      cases r with
      | error err => exact ⟨hx.wf, hx.grows, hx.vars, fun ls hls => by cases hls⟩
      | ok l =>
        obtain ⟨hwf, hgrow, hvars, hrest⟩ := conditions_attempts hx.wf p xs
        dsimp only at hwf hgrow hvars hrest ⊢
        refine ⟨hwf, le_trans hx.grows hgrow, hvars.trans hx.vars, fun ls hls => ?_⟩
        cases hrs : ((conditions p xs).run e₁).1 with
        | error err =>
          rw [hrs] at hls
          cases hls
        | ok ms =>
          rw [hrs] at hls
          cases hls
          obtain ⟨hms, hlen, haccs⟩ := hrest ms hrs
          have hl := (hx.denotes l rfl).of_le hx.wf hgrow
          have hsame : e₁.vars = e.vars := hx.vars
          obtain ⟨haccs, hvalues⟩ := acceptsAll_of_vars (fun _ _ h => hsame ▸ h) xs haccs
          refine ⟨⟨?_, fun ρ V hV => ?_⟩, by simp [hlen], ?_⟩
          · rintro m (_ | ⟨_, hm⟩)
            · exact hl.mem
            · exact hms.mem m hm
          · rw [List.map_cons, hl.eval ρ V hV, hms.eval ρ V hV, conditionValues, hvalues]
          · rw [acceptsAll, hacc l rfl, haccs]
            rfl

end

mutual

theorem exists_condition {e : Encoding} (wf : e.WellFormed) : (x : SExpr α) →
    e.accepts false x → ∃ l, ((condition false x).run e).1 = .ok l
  | .symbol note name, hx => by
    rw [accepts] at hx
    obtain ⟨l, hl⟩ := Option.isSome_iff_exists.1 hx
    exact ⟨l, by rw [condition_symbol_eq, hl]⟩
  | .list note (.symbol note' name :: args), hx => by
    rw [accepts, Bool.and_eq_true] at hx
    obtain ⟨ls, hls⟩ := exists_conditions wf args hx.1
    obtain ⟨-, -, -, hargs⟩ := conditions_attempts wf false args
    obtain ⟨-, hlen, -⟩ := hargs ls hls
    rw [condition_list_eq]
    cases hr : (conditions false args).run e with
    | mk r e₁ =>
      rw [hr] at hls
      cases hls
      cases hc : Connective.ofName? name with
      | none => simp [hc] at hx
      | some c =>
        rw [hc, Option.elim_some, ← hlen] at hx
        obtain ⟨l, hl⟩ := exists_connect hx.2 e₁
        exact ⟨l, by simp only [hl]; rfl⟩
  | .list _ [], hx => by
    rw [accepts.eq_def] at hx
    cases hx
  | .list _ (.list _ _ :: _), hx => by
    rw [accepts.eq_def] at hx
    cases hx

theorem exists_conditions {e : Encoding} (wf : e.WellFormed) : (xs : List (SExpr α)) →
    e.acceptsAll false xs → ∃ ls, ((conditions false xs).run e).1 = .ok ls
  | [], _ => ⟨[], by rw [conditions]; rfl⟩
  | x :: xs, hx => by
    rw [acceptsAll, Bool.and_eq_true] at hx
    obtain ⟨l, hl⟩ := exists_condition wf x hx.1
    obtain ⟨hfirst, -⟩ := condition_attempts wf false x
    obtain ⟨hrest, -⟩ := acceptsAll_of_vars hfirst.grows.vars xs hx.2
    obtain ⟨ls, hls⟩ := exists_conditions hfirst.wf xs hrest
    refine ⟨l :: ls, ?_⟩
    rw [conditions_cons_eq]
    cases hr : (condition false x).run e with
    | mk r e₁ =>
      rw [hr] at hl hls
      cases hl
      dsimp only at hls ⊢
      rw [hls]
      rfl

end

theorem connect_permitted {c : Connective} {n : Nat} (hc : c.takes false n) (ls : List Lit)
    (e : Encoding) : (connect c true ls).run e = (connect c false ls).run e := by
  have hne : c ≠ .next := by
    rintro rfl
    cases hc
  rw [connect_run c fun hnext => absurd hnext hne, connect_run c fun _ => rfl]

mutual

/-- It makes no difference whether next forms are permitted where there are none. -/
theorem condition_permitted {e : Encoding} (wf : e.WellFormed) : (x : SExpr α) →
    e.accepts false x → (condition true x).run e = (condition false x).run e
  | .symbol note name, _ => by rw [condition_symbol_eq, condition_symbol_eq]
  | .list note (.symbol note' name :: args), hx => by
    rw [accepts, Bool.and_eq_true] at hx
    rw [condition_list_eq, condition_list_eq, conditions_permitted wf args hx.1]
    cases hc : Connective.ofName? name with
    | none => rfl
    | some c =>
      rw [hc, Option.elim_some] at hx
      simp only [connect_permitted hx.2]
  | .list _ [], hx => by
    rw [accepts.eq_def] at hx
    cases hx
  | .list _ (.list _ _ :: _), hx => by
    rw [accepts.eq_def] at hx
    cases hx

theorem conditions_permitted {e : Encoding} (wf : e.WellFormed) : (xs : List (SExpr α)) →
    e.acceptsAll false xs → (conditions true xs).run e = (conditions false xs).run e
  | [], _ => by rw [conditions, conditions]
  | x :: xs, hx => by
    rw [acceptsAll, Bool.and_eq_true] at hx
    rw [conditions_cons_eq, conditions_cons_eq, condition_permitted wf x hx.1]
    obtain ⟨hfirst, -⟩ := condition_attempts wf false x
    cases hr : (condition false x).run e with
    | mk r e₁ =>
      rw [hr] at hfirst
      obtain ⟨hrest, -⟩ := acceptsAll_of_vars hfirst.grows.vars xs hx.2
      have hrests := conditions_permitted hfirst.wf xs hrest
      cases r with
      | error err => rfl
      | ok l =>
        dsimp only at hrests ⊢
        rw [hrests]

end

/-- Exactly the conditions without next forms can be converted where these are not permitted. -/
theorem condition_isOk_iff {e : Encoding} (wf : e.WellFormed) {x : SExpr α} :
    ((condition false x).run e).1.isOk ↔ e.accepts false x := by
  constructor
  · intro h
    cases hr : ((condition false x).run e).1 with
    | ok l => exact (condition_attempts wf false x).2 l hr
    | error err =>
      rw [hr] at h
      cases h
  · intro h
    obtain ⟨l, hl⟩ := exists_condition wf x h
    rw [hl]
    rfl

theorem exists_condition_next {e : Encoding} (wf : e.WellFormed) {name : String} {x : Variable}
    (hname : e.conditionName? name = some x.current) (hx : e.vars[x.index]? = some x)
    (hstate : x.isInput = false) (note note' note'' : α) :
    ∃ l, ((condition true (.list note [.symbol note' "next", .symbol note'' name])).run e).1 =
      .ok l := by
  obtain ⟨m, hm⟩ := exists_shift_current wf hx hstate
  rw [condition_list_eq, conditions_cons_eq, condition_symbol_eq, hname]
  change ∃ l, ((connect .next true [x.current]).run e).1.mapError _ = .ok l
  rw [connect_next_eq, if_pos rfl, hm]
  exact ⟨m, rfl⟩

end Encoding

namespace ConditionError

variable {α : Type}

def erase : ConditionError α → ConditionError Unit
  | .unknownVariable x => .unknownVariable x.erase
  | .malformed x reason => .malformed x.erase reason

end ConditionError

namespace Encoding

variable {α : Type}

mutual

/-- The notes of a tree make no difference to what it is converted to. -/
theorem condition_erase (p : Bool) (e : Encoding) : (x : SExpr α) →
    (condition p x.erase).run e =
      (((condition p x).run e).1.mapError .erase, ((condition p x).run e).2)
  | .symbol note name => by
    rw [SExpr.erase, SExpr.map, condition_symbol_eq, condition_symbol_eq]
    cases e.conditionName? name <;> rfl
  | .list note (.symbol note' name :: args) => by
    rw [SExpr.erase, SExpr.map, SExpr.mapItems, SExpr.map, condition_list_eq, condition_list_eq,
      conditions_erase p e args]
    cases (conditions p args).run e with
    | mk r e₁ =>
      cases r with
      | error err => rfl
      | ok ls =>
        cases Connective.ofName? name with
        | none => rfl
        | some c =>
          dsimp only [Except.mapError]
          cases ((connect c p ls).run e₁).1 <;> rfl
  | .list note [] => by
    rw [SExpr.erase, SExpr.map, SExpr.mapItems, condition_nil_eq, condition_nil_eq]
    rfl
  | .list note (.list note' items :: args) => by
    rw [SExpr.erase, SExpr.map, SExpr.mapItems, SExpr.map, condition_nested_eq, condition_nested_eq]
    rfl

theorem conditions_erase (p : Bool) (e : Encoding) : (xs : List (SExpr α)) →
    (conditions p (SExpr.mapItems (fun _ => ()) xs)).run e =
      (((conditions p xs).run e).1.mapError .erase, ((conditions p xs).run e).2)
  | [] => by
    rw [SExpr.mapItems, conditions, conditions]
    rfl
  | x :: xs => by
    have hx := condition_erase p e x
    rw [SExpr.erase] at hx
    rw [SExpr.mapItems, conditions_cons_eq, conditions_cons_eq, hx]
    cases (condition p x).run e with
    | mk r e₁ =>
      cases r with
      | error err => rfl
      | ok l =>
        dsimp only [Except.mapError]
        rw [conditions_erase p e₁ xs]
        cases ((conditions p xs).run e₁).1 <;> rfl

end

end Encoding

end Lasso
