import Lasso.Proofs.Machine.Conversion
import Lasso.Proofs.Machine.Path

/-! # Conditions on a timeline

Read at a time, a name is its value then and the operator for the next state moves to the time
after.  The converter knows two times only, but it refuses to move an expression that mentions the
second, so for every condition that it accepts the two readings are the same.
-/

namespace Lasso

set_option autoImplicit false

/-- Values of names by time. -/
abbrev Timeline := Nat → String → Bool

namespace Timeline

variable {α : Type}

def name (σ : Timeline) (t : Nat) : String → Bool
  | "true" | "TRUE" | "1" => true
  | "false" | "FALSE" | "0" => false
  | name => σ t name

mutual

/-- The value of a condition at a time. -/
def meaning (σ : Timeline) (t : Nat) : SExpr α → Bool
  | .symbol _ name => σ.name t name
  | .list _ (.symbol _ op :: args) =>
    match Connective.ofName? op with
    | some .next => Connective.next.apply (σ.meanings (t + 1) args)
    | some c => c.apply (σ.meanings t args)
    | none => false
  | .list _ _ => false

def meanings (σ : Timeline) (t : Nat) : List (SExpr α) → List Bool
  | [] => []
  | x :: xs => σ.meaning t x :: σ.meanings t xs

end

mutual

theorem meaning_erase (σ : Timeline) (t : Nat) :
    (x : SExpr α) → σ.meaning t x.erase = σ.meaning t x
  | .symbol _ _ => rfl
  | .list _ (.symbol _ op :: args) => by
    have hargs := fun t => meanings_erase σ t args
    rw [SExpr.erase, SExpr.map, SExpr.mapItems, SExpr.map, meaning, meaning, hargs, hargs]
  | .list _ [] => by
    rw [SExpr.erase, SExpr.map, SExpr.mapItems, meaning, meaning] <;> exact nofun
  | .list _ (.list _ _ :: _) => by
    rw [SExpr.erase, SExpr.map, SExpr.mapItems, SExpr.map, meaning, meaning] <;> exact nofun

theorem meanings_erase (σ : Timeline) (t : Nat) :
    (xs : List (SExpr α)) → σ.meanings t (SExpr.mapItems (fun _ => ()) xs) = σ.meanings t xs
  | [] => rfl
  | x :: xs => by
    have hx := meaning_erase σ t x
    rw [SExpr.erase] at hx
    rw [SExpr.mapItems, meanings, meanings, hx, meanings_erase σ t xs]

end

end Timeline

namespace Encoding

variable {α : Type}

theorem vars_index_of_lookup? {e : Encoding} (wf : e.WellFormed) {name : String} {x : Variable}
    (hx : e.lookup? name = some x) : e.vars[x.index]? = some x ∧ x.name = name := by
  obtain ⟨i, hi, hxi⟩ := Array.getElem_of_mem (Array.mem_of_find?_eq_some hx)
  have hxi' : e.vars[i]? = some x := Array.getElem?_eq_some_iff.2 ⟨hi, hxi⟩
  have hname := Array.find?_some hx
  rw [wf.index i x hxi']
  exact ⟨hxi', by simpa using hname⟩

/-- The values of the variables of an encoding by time are those of their names. -/
def Spells (e : Encoding) (w : Nat → Letter) (σ : Timeline) : Prop :=
  ∀ (name : String) (x : Variable), e.lookup? name = some x → ∀ t, w t x.index = σ t name

theorem Spells.of_vars_eq {e e' : Encoding} {w : Nat → Letter} {σ : Timeline} (h : e.Spells w σ)
    (hvars : e'.vars = e.vars) : e'.Spells w σ := by
  intro name x hx
  apply h name x
  rwa [lookup?, ← hvars]

theorem Spells.nameValue_eq {e : Encoding} {w : Nat → Letter} {σ : Timeline} (h : e.Spells w σ)
    {name : String} (hname : (e.conditionName? name).isSome) (t : Nat) :
    e.nameValue (w t) name = σ.name t name := by
  by_cases htrue : name = "true" ∨ name = "TRUE" ∨ name = "1"
  · rcases htrue with rfl | rfl | rfl <;> rfl
  by_cases hfalse : name = "false" ∨ name = "FALSE" ∨ name = "0"
  · rcases hfalse with rfl | rfl | rfl <;> rfl
  have hvariable : e.conditionName? name = (e.lookup? name).map (·.current) := by
    unfold conditionName?
    split <;> simp_all
  have hnow : e.nameValue (w t) name = (e.lookup? name).elim false fun x => w t x.index := by
    unfold nameValue
    split <;> simp_all
  have hthen : σ.name t name = σ t name := by
    unfold Timeline.name
    split <;> simp_all
  rw [hvariable, Option.isSome_map] at hname
  obtain ⟨x, hx⟩ := Option.isSome_iff_exists.1 hname
  rw [hnow, hthen, hx, Option.elim_some]
  exact h name x hx t

theorem eq_of_shift {e : Encoding} {l m : Lit} {ψ : Letter → Letter → Bool}
    (hl : e.Denotes l (fun V => ψ V.now V.next)) (hm : (shift l e).1 = .ok m)
    (now next next' : Letter) : ψ now next = ψ now next' := by
  have hfree := shiftError?_eq_none_of_shift hm
  have hcongr : e.graph.eval (e.assign (View.step now next)) l =
      e.graph.eval (e.assign (View.step now next')) l := by
    apply Graph.eval_congr_of_support
    intro v hv
    have hverr := hfree v hv
    cases ho : e.origins[v.var]? with
    | none => simp [assign, ho]
    | some o =>
      cases o with
      | next i => simp [shiftError?, ho] at hverr
      | current i => simp [assign, ho, View.step]
      | timed i t => simp [assign, ho, View.step]
  have heval := hl.eq_eval_assign (View.step now next)
  rw [hcongr, ← hl.eq_eval_assign (View.step now next')] at heval
  exact heval

/-- The arguments of an operator that was applied to them, where the operator for the next state
looks at what they say now only. -/
theorem apply_eq_of_connect {e e₁ : Encoding} {c : Connective} {p : Bool} {ls : List Lit} {l : Lit}
    {args : List (SExpr α)} (hls : e₁.DenotesAll ls fun V => e.conditionValues V.now V.next args)
    (h : ((connect c p ls).run e₁).1 = .ok l) (now next next' : Letter) :
    c = .next → c.apply (e.conditionValues now next args) =
      c.apply (e.conditionValues now next' args) := by
  rintro rfl
  match ls with
  | [a] =>
    rw [connect_next_eq] at h
    split at h
    · have ha : e₁.Denotes a fun V => Connective.next.apply (e.conditionValues V.now V.next args) :=
        ⟨hls.mem a (by simp), fun ρ V hV => by rw [← hls.eval ρ V hV]; rfl⟩
      cases hm : (shift a e₁).1 with
      | ok m =>
        exact eq_of_shift (ψ := fun now next =>
          Connective.next.apply (e.conditionValues now next args)) ha hm now next next'
      | error err =>
        rw [hm] at h
        cases h
    · cases h
  | [] => cases h
  | _ :: _ :: _ => cases h

mutual

/-- What an accepted condition means to the converter is what it means on a timeline. -/
theorem conditionValue_eq_meaning {e : Encoding} (wf : e.WellFormed) {p : Bool} {w : Nat → Letter}
    {σ : Timeline} (hw : e.Spells w σ) : (x : SExpr α) → {l : Lit} →
    ((condition p x).run e).1 = .ok l → ∀ t,
      e.conditionValue (w t) (w (t + 1)) x = σ.meaning t x
  | .symbol note name, l, h, t => by
    rw [condition_symbol_eq] at h
    rw [conditionValue, Timeline.meaning]
    apply hw.nameValue_eq
    cases hname : e.conditionName? name with
    | none =>
      rw [hname] at h
      cases h
    | some m => rfl
  | .list note (.symbol note' name :: args), l, h, t => by
    obtain ⟨-, -, -, hargs⟩ := conditions_attempts wf p args
    have hmeanings := fun {ls} (h : ((conditions p args).run e).1 = .ok ls) =>
      conditionValues_eq_meanings wf hw args h
    rw [condition_list_eq] at h
    rw [conditionValue, Timeline.meaning]
    cases hr : (conditions p args).run e with
    | mk r e₁ =>
      rw [hr] at h hargs hmeanings
      cases r with
      | error err => cases h
      | ok ls =>
        obtain ⟨hls, -, -⟩ := hargs ls rfl
        cases hc : Connective.ofName? name with
        | none => rfl
        | some c =>
          rw [hc] at h
          have hnext := apply_eq_of_connect hls (ok_of_mapError h)
          cases c with
          | next =>
            -- the argument is read at the next time, and what follows it does not matter
            change Connective.next.apply _ = Connective.next.apply _
            rw [hnext _ _ (w (t + 1 + 1)) rfl, hmeanings rfl (t + 1)]
          | _ => simp only [hmeanings rfl t]
  | .list note [], l, h, t => by
    rw [condition_nil_eq] at h
    cases h
  | .list note (.list _ _ :: _), l, h, t => by
    rw [condition_nested_eq] at h
    cases h

theorem conditionValues_eq_meanings {e : Encoding} (wf : e.WellFormed) {p : Bool}
    {w : Nat → Letter} {σ : Timeline} (hw : e.Spells w σ) : (xs : List (SExpr α)) →
    {ls : List Lit} → ((conditions p xs).run e).1 = .ok ls → ∀ t,
      e.conditionValues (w t) (w (t + 1)) xs = σ.meanings t xs
  | [], ls, h, t => by rw [conditionValues, Timeline.meanings]
  | x :: xs, ls, h, t => by
    obtain ⟨hx, -⟩ := condition_attempts wf p x
    have hmeaning := fun {l} (h : ((condition p x).run e).1 = .ok l) =>
      conditionValue_eq_meaning wf hw x h
    rw [conditions_cons_eq] at h
    cases hr : (condition p x).run e with
    | mk r e₁ =>
      rw [hr] at h hx hmeaning
      cases r with
      | error err => cases h
      | ok l =>
        dsimp only at h
        cases hrs : ((conditions p xs).run e₁).1 with
        | error err =>
          rw [hrs] at h
          cases h
        | ok ms =>
          have hvars : e₁.vars = e.vars := hx.vars
          have hrest := conditionValues_eq_meanings hx.wf (hw.of_vars_eq hvars) xs hrs t
          rw [conditionValues, Timeline.meanings, hmeaning rfl t, ← hrest,
            conditionValues_of_vars_eq hvars]

end

end Encoding

end Lasso
