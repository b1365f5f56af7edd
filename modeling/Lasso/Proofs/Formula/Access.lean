import Lasso.Proofs.Formula.Printing
import Lasso.Proofs.SExpr.Identity

/-! # Reading formulas by accesses that may fail

Operands are taken from lists by their index, and spans from a map by identity.  Either can break
off.  It never does for terms that the map gives their spans, and the formula is the same.
-/

namespace Lasso

set_option autoImplicit false

namespace Checked

/-- The item at an index, which a list has to have. -/
def item {α : Type} (as : List α) (i : Nat) : Except Crash α :=
  match as[i]? with
  | some a => .ok a
  | none => .error .noElement

/-- The items from an index on, up to which a list has to go. -/
def after {α : Type} (as : List α) (i : Nat) : Except Crash (List α) :=
  if i ≤ as.length then .ok (as.drop i) else .error .noElement

/-- The span of a term, which a map has to have. -/
def spanOf (m : SpanMap Nat) (x : SExpr Nat) : Except Crash Span := (m.get x.note).mapError .key

/-- What does not access anything that may be missing. -/
def plain {σ α : Type} (m : StateM σ α) : StateT σ (Except Crash) α := fun s => .ok (m s)

/-- What may crash never does, and is the same as what cannot. -/
def Agrees {σ α : Type} (m' : StateT σ (Except Crash) α) (m : StateM σ α) : Prop :=
  ∀ s, m' s = .ok (m s)

section

variable {σ α β : Type}

theorem agrees_plain (m : StateM σ α) : Agrees (plain m) m := fun _ => rfl

theorem agrees_pure (a : α) : Agrees (pure a : StateT σ (Except Crash) α) (pure a : StateM σ α) :=
  fun _ => rfl

theorem Agrees.bind {m' : StateT σ (Except Crash) α} {m : StateM σ α} (hm : Agrees m' m)
    {k' : α → StateT σ (Except Crash) β} {k : α → StateM σ β} (hk : ∀ a, Agrees (k' a) (k a)) :
    Agrees (m' >>= k') (m >>= k) := by
  intro s
  change (m' s).bind (fun a => k' a.1 a.2) = .ok (k (m s).1 (m s).2)
  rw [hm s]
  exact hk _ _

theorem Agrees.access {x : Except Crash α} {a : α} (hx : x = .ok a)
    {k : α → StateT σ (Except Crash) β} {m : StateM σ β} (hk : Agrees (k a) m) :
    Agrees (liftM x >>= k) m := by
  subst hx
  exact hk

theorem Agrees.ite {c : Prop} [Decidable c] {m₁' m₂' : StateT σ (Except Crash) α}
    {m₁ m₂ : StateM σ α} (h₁ : c → Agrees m₁' m₁) (h₂ : ¬ c → Agrees m₂' m₂) :
    Agrees (if c then m₁' else m₂') (if c then m₁ else m₂) := by
  by_cases hc : c
  · rw [if_pos hc, if_pos hc]
    exact h₁ hc
  · rw [if_neg hc, if_neg hc]
    exact h₂ hc

theorem agrees_forM {R : α → β → Prop} {f' : α → StateT σ (Except Crash) Unit}
    {f : β → StateM σ Unit} {as : List α} {bs : List β} (h : List.Forall₂ R as bs)
    (hf : ∀ a, ∀ b ∈ bs, R a b → Agrees (f' a) (f b)) : Agrees (as.forM f') (bs.forM f) := by
  induction h with
  | nil => exact agrees_pure _
  | cons hab _ ih =>
    exact (hf _ _ List.mem_cons_self hab).bind fun _ =>
      ih fun a b hb => hf a b (List.mem_cons_of_mem _ hb)

theorem spanOf_eq {m : SpanMap Nat} {x : SExpr Nat} {t : Term} (h : m.Places x t) :
    spanOf m x = .ok t.note := by
  rw [spanOf, SpanMap.get, h.get?_note]
  rfl

end

def apply (op : Operator) (name : String) (args : List Formula) :
    Except Crash (Except String Formula) :=
  match op with
  | .unary op => do
    if args.length ≠ 1 then return .error (name ++ " requires exactly one argument")
    return .ok (.unary op (← item args 0))
  | .binary op => do
    if op = .and ∨ op = .or then
      if args.length < 2 then return .error (name ++ " requires at least two arguments")
      return .ok (Formula.chain op (← item args 0) (← item args 1) (← after args 2))
    if args.length ≠ 2 then return .error (name ++ " requires exactly two arguments")
    return .ok (.binary op (← item args 0) (← item args 1))
  | .atom => return .error (name ++ " requires exactly two arguments")

theorem apply_eq (op : Operator) (name : String) (args : List Formula) :
    apply op name args = .ok (Formula.apply op name args) := by
  cases op with
  | atom => rfl
  | unary op => match args with
    | [] | [_] | _ :: _ :: _ => rfl
  | binary op => match args with
    | [] | [_] | [_, _] | _ :: _ :: _ :: _ => cases op <;> rfl

def proposition (items : List (SExpr Nat)) : Except String Formula :=
  if items.length = 0 then .error "empty atomic proposition"
  else .ok (.atom (.list () (SExpr.mapItems (fun _ => ()) items)))

section

variable (m : SpanMap Nat)

/-- Attributes the result of a rule to a term, which must have a span. -/
def settle (x : SExpr Nat) (result : Except String Formula) :
    StateT (SpanMap Formula) (Except Crash) (Interpreter.Outcome Formula) := do
  match result with
  | .error message => return .error [⟨← spanOf m x, message⟩]
  | .ok value =>
    let span ← spanOf m x
    modify (·.insertIfNew value span)
    return .ok value

mutual

def interpret :
    SExpr Nat → StateT (SpanMap Formula) (Except Crash) (Interpreter.Outcome Formula)
  | .symbol n name => settle m (.symbol n name) (.ok (.atom (.symbol () name)))
  | .list n items =>
    match Operator.ofName? (SExpr.headName items) with
    | none =>
      settle m (.list n items) (proposition items)
    | some op => do
      match ← interpretTail items with
      | .error es => return .error es
      | .ok values => settle m (.list n items) (← apply op (SExpr.headName items) values)

/-- The formulas of all items but the first, which there has to be. -/
def interpretTail : List (SExpr Nat) →
    StateT (SpanMap Formula) (Except Crash) (Interpreter.Outcome (List Formula))
  | [] => throw .noElement
  | _ :: items => interpretItems items

def interpretItems : List (SExpr Nat) →
    StateT (SpanMap Formula) (Except Crash) (Interpreter.Outcome (List Formula))
  | [] => return .ok []
  | x :: items => do
    let first ← interpret x
    let rest ← interpretItems items
    return Interpreter.join first rest

end

variable {m}

theorem settle_agrees {x : SExpr Nat} {t : Term} (h : m.Places x t)
    (result : Except String Formula) :
    Agrees (settle m x result) (Interpreter.settle t.note result) := by
  cases result with
  | error message => exact .access (spanOf_eq h) (agrees_pure _)
  | ok value =>
    exact .access (spanOf_eq h) (.bind (fun _ => rfl) fun _ => agrees_pure _)

theorem headName_eq {xs : List (SExpr Nat)} {ts : List Term} (h : List.Forall₂ m.Places xs ts) :
    SExpr.headName xs = SExpr.headName ts := by
  rw [← SExpr.headName_mapItems m.get?, SpanMap.mapItems_eq_iff.2 h, SExpr.headName_mapItems]

theorem proposition_eq {xs : List (SExpr Nat)} {ts : List Term}
    (h : List.Forall₂ m.Places xs ts) : proposition xs = Formula.ofItems ts := by
  have herase : SExpr.mapItems (fun _ => ()) xs = SExpr.mapItems (fun _ => ()) ts := by
    rw [← SExpr.eraseItems_mapItems m.get?, SpanMap.mapItems_eq_iff.2 h,
      SExpr.eraseItems_mapItems]
  rw [proposition, Formula.ofItems, h.length_eq, herase]
  cases ts <;> rfl

mutual

theorem interpret_agrees : {x : SExpr Nat} → {t : Term} → m.Places x t →
    Agrees (interpret m x) (Formula.interpreter.interpret t)
  | .symbol n name, t, h => by
    obtain ⟨span, -, rfl⟩ := SpanMap.places_symbol_iff.1 h
    rw [interpret]
    exact settle_agrees h _
  | .list n xs, t, h => by
    obtain ⟨span, ts, -, hitems, rfl⟩ := SpanMap.places_list_iff.1 h
    rw [interpret, Interpreter.interpret, Formula.ruleFor_eq, headName_eq hitems]
    cases hop : Operator.ofName? (SExpr.headName ts) with
    | none =>
      rw [proposition_eq hitems]
      exact settle_agrees h _
    | some op =>
      refine (interpretTail_agrees hitems ?_).bind fun outcome => ?_
      · rintro rfl
        cases hop
      cases outcome with
      | error es => exact agrees_pure _
      | ok values => exact .access (apply_eq op _ values) (settle_agrees h _)

/-- A list with an operator at its head has a head. -/
theorem interpretTail_agrees : {xs : List (SExpr Nat)} → {ts : List Term} →
    List.Forall₂ m.Places xs ts → ts ≠ [] →
      Agrees (interpretTail m xs) (Formula.interpreter.interpretTail ts)
  | [], _, .nil, h => absurd rfl h
  | _ :: _, _, .cons _ hxs, _ => interpretItems_agrees hxs

theorem interpretItems_agrees : {xs : List (SExpr Nat)} → {ts : List Term} →
    List.Forall₂ m.Places xs ts →
      Agrees (interpretItems m xs) (Formula.interpreter.interpretItems ts)
  | [], _, .nil => agrees_pure _
  | _ :: _, _, .cons hx hxs => by
    rw [interpretItems, Interpreter.interpretItems]
    exact (interpret_agrees hx).bind fun _ => (interpretItems_agrees hxs).bind fun _ =>
      agrees_pure _

end

end

end Checked

end Lasso
