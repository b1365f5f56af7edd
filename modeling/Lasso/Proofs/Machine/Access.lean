import Lasso.Proofs.Formula.Access
import Lasso.Proofs.Machine.Conversion

/-! # Reading conditions by accesses that may fail

Arguments are taken from lists on the strength of what is said about their number.  No such access
fails.  The notes of a condition do not matter, but for where a mistake is.
-/

namespace Lasso

set_option autoImplicit false

namespace ConditionError

def map {α β : Type} (f : α → β) : ConditionError α → ConditionError β
  | .unknownVariable x => .unknownVariable (x.map f)
  | .malformed x reason => .malformed (x.map f) reason

variable {α β : Type} (f : α → β) (e : ConditionError α)

@[simp] theorem expr_map : (e.map f).expr = e.expr.map f := by
  cases e <;> rfl

@[simp] theorem message_map : (e.map f).message = e.message := by
  cases e with
  | unknownVariable x => exact congrArg ("unknown variable \"" ++ · ++ "\"") (SExpr.text_map f x)
  | malformed x reason =>
    exact congrArg ("malformed expression " ++ · ++ " (" ++ reason.message ++ ")")
      (SExpr.text_map f x)

end ConditionError

namespace Encoding

variable {α β : Type}

mutual

theorem condition_map (f : α → β) (p : Bool) : (x : SExpr α) → (e : Encoding) →
    (condition p (x.map f)).run e =
      (((condition p x).run e).1.mapError (.map f), ((condition p x).run e).2)
  | .symbol note name, e => by
    rw [SExpr.map, condition_symbol_eq, condition_symbol_eq]
    cases e.conditionName? name <;> rfl
  | .list note [], e => by
    rw [SExpr.map, SExpr.mapItems, condition_nil_eq, condition_nil_eq]
    rfl
  | .list note (.list note' items :: args), e => by
    rw [SExpr.map, SExpr.mapItems, SExpr.map, condition_nested_eq, condition_nested_eq]
    rfl
  | .list note (.symbol note' name :: args), e => by
    rw [SExpr.map, SExpr.mapItems, SExpr.map, condition_list_eq, condition_list_eq,
      conditions_map f p args e]
    cases (conditions p args).run e with
    | mk r e₁ =>
      cases r with
      | error err => rfl
      | ok ls =>
        cases Connective.ofName? name with
        | none => rfl
        | some c =>
          simp only [Except.mapError]
          cases ((connect c p ls).run e₁).1 <;> rfl

theorem conditions_map (f : α → β) (p : Bool) : (xs : List (SExpr α)) → (e : Encoding) →
    (conditions p (SExpr.mapItems f xs)).run e =
      (((conditions p xs).run e).1.mapError (.map f), ((conditions p xs).run e).2)
  | [], e => rfl
  | x :: xs, e => by
    rw [SExpr.mapItems, conditions_cons_eq, conditions_cons_eq, condition_map f p x e]
    cases (condition p x).run e with
    | mk r e₁ =>
      cases r with
      | error err => rfl
      | ok l =>
        simp only [Except.mapError]
        rw [conditions_map f p xs e₁]
        cases ((conditions p xs).run e₁).1 <;> rfl

end

end Encoding

namespace Checked

open Encoding

section

variable {α : Type}

def connect (c : Connective) (permitNext : Bool) (args : List Lit) :
    Except Crash (Attempt Malformed Lit) := do
  match c.arity? with
  | some n => if args.length ≠ n then return throw (.argumentCount n)
  | none => if args.length = 0 then return throw .noArguments
  match c with
  | .not | .next => return Encoding.connect c permitNext [← item args 0]
  | .xor | .implies | .iff =>
    return Encoding.connect c permitNext [← item args 0, ← item args 1]
  | .ite => return Encoding.connect c permitNext [← item args 0, ← item args 1, ← item args 2]
  | .and | .or => return Encoding.connect c permitNext args

theorem connect_eq (c : Connective) (permitNext : Bool) (args : List Lit) :
    connect c permitNext args = .ok (Encoding.connect c permitNext args) := by
  match args with
  | [] | [_] | [_, _] | [_, _, _] | _ :: _ :: _ :: _ :: _ => cases c <;> rfl

def connectNamed (permitNext : Bool) (x : SExpr α) (name : String) (ls : List Lit) :
    StateT Encoding (Except Crash) (Except (ConditionError α) Lit) := do
  match Connective.ofName? name with
  | none => return .error (.malformed x (.unknownOperator name))
  | some c =>
    let connected ← connect c permitNext ls
    return (← plain connected.run).mapError (.malformed x)

theorem connectNamed_eq (permitNext : Bool) (x : SExpr α) (name : String) (ls : List Lit)
    (e : Encoding) : connectNamed permitNext x name ls e = .ok (match Connective.ofName? name with
      | none => (.error (.malformed x (.unknownOperator name)), e)
      | some c =>
        (((Encoding.connect c permitNext ls).run e).1.mapError (.malformed x),
          ((Encoding.connect c permitNext ls).run e).2)) := by
  rw [connectNamed]
  cases Connective.ofName? name with
  | none => rfl
  | some c =>
    dsimp only
    rw [connect_eq]
    rfl

mutual

def condition (permitNext : Bool) :
    SExpr α → StateT Encoding (Except Crash) (Except (ConditionError α) Lit)
  | .symbol note name => plain (Encoding.condition permitNext (.symbol note name)).run
  | .list note items => do
    if items.length = 0 then return .error (.malformed (.list note items) .noOperator)
    match (← item items 0).symbol? with
    | none => return .error (.malformed (.list note items) .noOperator)
    | some name =>
      match ← arguments permitNext items with
      | .error e => return .error e
      | .ok ls => connectNamed permitNext (.list note items) name ls

/-- The conditions of all items but the first, which there has to be. -/
def arguments (permitNext : Bool) :
    List (SExpr α) → StateT Encoding (Except Crash) (Except (ConditionError α) (List Lit))
  | [] => throw .noElement
  | _ :: items => conditions permitNext items

def conditions (permitNext : Bool) :
    List (SExpr α) → StateT Encoding (Except Crash) (Except (ConditionError α) (List Lit))
  | [] => return .ok []
  | x :: xs => do
    match ← condition permitNext x with
    | .error e => return .error e
    | .ok l => return (← conditions permitNext xs).map (l :: ·)

end

mutual

theorem condition_agrees (p : Bool) : (x : SExpr α) →
    Agrees (condition p x) (Encoding.condition p x).run
  | .symbol _ _ => agrees_plain _
  | .list note [] => fun e => by
    rw [condition_nil_eq]
    rfl
  | .list note (.list note' items :: args) => fun e => by
    rw [condition_nested_eq]
    rfl
  | .list note (.symbol note' name :: args) => fun e => by
    have hargs := conditions_agrees p args e
    rw [condition_list_eq]
    rw [condition]
    change (conditions p args e).bind _ = _
    rw [hargs]
    cases (Encoding.conditions p args).run e with
    | mk r e₁ =>
      cases r with
      | error err => rfl
      | ok ls =>
        exact connectNamed_eq p _ name ls e₁

theorem conditions_agrees (p : Bool) : (xs : List (SExpr α)) →
    Agrees (conditions p xs) (Encoding.conditions p xs).run
  | [] => fun _ => rfl
  | x :: xs => fun e => by
    have hfirst := condition_agrees p x e
    rw [conditions_cons_eq]
    rw [conditions]
    change (condition p x e).bind _ = _
    rw [hfirst]
    cases (Encoding.condition p x).run e with
    | mk r e₁ =>
      cases r with
      | error err => rfl
      | ok l =>
        have hrest := conditions_agrees p xs e₁
        change (conditions p xs e₁).bind _ = _
        rw [hrest]
        rfl

end

end

theorem cases_of_mapError_eq {α ε ε' γ : Type} {f : ε → γ} {f' : ε' → γ} {x : Except ε α}
    {x' : Except ε' α} (h : x.mapError f = x'.mapError f') :
    (∃ a, x = .ok a ∧ x' = .ok a) ∨ ∃ e e', x = .error e ∧ x' = .error e' ∧ f e = f' e' := by
  cases x with
  | ok a =>
    cases x' with
    | ok a' => exact .inl ⟨a, rfl, congrArg Except.ok (Except.ok.inj h).symm⟩
    | error e' => cases h
  | error e =>
    cases x' with
    | ok a' => cases h
    | error e' => exact .inr ⟨e, e', rfl, rfl, Except.error.inj h⟩

/-- Under identities a condition is what it is under spans, and a mistake is in the same part. -/
theorem condition_places {m : SpanMap Nat} {x : SExpr Nat} {t : Term} (h : m.Places x t) (p : Bool)
    (e : Encoding) :
    ((Encoding.condition p x).run e).2 = ((Encoding.condition p t).run e).2 ∧
      ((∃ l, ((Encoding.condition p x).run e).1 = .ok l ∧
        ((Encoding.condition p t).run e).1 = .ok l) ∨
      ∃ err err', ((Encoding.condition p x).run e).1 = .error err ∧
        ((Encoding.condition p t).run e).1 = .error err' ∧
        m.Places err.expr err'.expr ∧ err.message = err'.message) := by
  have hx := condition_map m.get? p x e
  rw [show x.map m.get? = t.map some from h, condition_map some p t e, Prod.mk.injEq] at hx
  refine ⟨hx.2.symm, (cases_of_mapError_eq hx.1.symm).imp_right ?_⟩
  rintro ⟨err, err', herr, herr', hmap⟩
  refine ⟨err, err', herr, herr', ?_, ?_⟩
  · rw [SpanMap.Places, ← ConditionError.expr_map, ← ConditionError.expr_map, hmap]
  · rw [← ConditionError.message_map m.get?, hmap, ConditionError.message_map]

end Checked

end Lasso
