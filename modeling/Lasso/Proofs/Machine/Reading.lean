import Mathlib.Logic.Relation
import Lasso.Machine.Reader
import Lasso.Proofs.Formula.Mistake
import Lasso.Proofs.Machine.Conversion
import Lasso.Proofs.SExpr.Occurrence

/-! # Steps of reading a model

A model file is read in steps of a few kinds: a name is declared, a condition is converted and
perhaps added to the machine, a property is noted, mistakes are reported.  Names and conditions are
terms of the text, and so is everything that is blamed.  What every step keeps holds of all that is
ever read.
-/

namespace Lasso

set_option autoImplicit false

namespace SExpr

variable {ts : List (SExpr Span)} {u : SExpr Span}

mutual

theorem Occurs.of_mem_positions : {t : SExpr Span} → Occurs ts t → u ∈ t.positions → Occurs ts u
  | .symbol _ _, h, hu => by
    obtain rfl := List.mem_singleton.1 hu
    exact h
  | .list _ items, h, hu => by
    rw [positions] at hu
    cases hop : Operator.ofName? (headName items) with
    | none =>
      rw [hop] at hu
      obtain rfl := List.mem_singleton.1 hu
      exact h
    | some op =>
      rw [hop] at hu
      rcases List.mem_append.1 hu with hu | hu
      · exact Occurs.of_mem_operandPositions (fun _ ht => h.item ht) hu
      · obtain rfl := List.mem_singleton.1 hu
        exact h

theorem Occurs.of_mem_operandPositions : {items : List (SExpr Span)} →
    (∀ t ∈ items, Occurs ts t) → u ∈ operandPositions items → Occurs ts u
  | [], _, hu => by simp [operandPositions] at hu
  | _ :: _, h, hu => Occurs.of_mem_itemPositions (fun _ ht => h _ (List.mem_cons_of_mem _ ht)) hu

theorem Occurs.of_mem_itemPositions : {items : List (SExpr Span)} →
    (∀ t ∈ items, Occurs ts t) → u ∈ itemPositions items → Occurs ts u
  | [], _, hu => by simp [itemPositions] at hu
  | _ :: _, h, hu => by
    rw [itemPositions] at hu
    rcases List.mem_append.1 hu with hu | hu
    · exact Occurs.of_mem_positions (h _ List.mem_cons_self) hu
    · exact Occurs.of_mem_itemPositions (fun _ ht => h _ (List.mem_cons_of_mem _ ht)) hu

end

end SExpr

namespace Encoding

open SExpr

variable {α : Type} {ts : List (SExpr α)} {p : Bool} {err : ConditionError α}

mutual

/-- What is wrong with a condition is wrong with a part of it. -/
theorem condition_blames {e : Encoding} : {x : SExpr α} → Occurs ts x →
    ((condition p x).run e).1 = .error err → Occurs ts err.expr
  | .symbol note name, hx, h => by
    rw [condition_symbol_eq] at h
    cases hname : e.conditionName? name with
    | some l =>
      rw [hname] at h
      cases h
    | none =>
      rw [hname] at h
      cases h
      exact hx
  | .list note (.symbol note' name :: args), hx, h => by
    -- arguments are converted first, so that the first mistake in them is the one reported
    have hargs := conditions_blames (e := e)
      fun x (hmem : x ∈ args) => hx.item (List.mem_cons_of_mem _ hmem)
    rw [condition_list_eq] at h
    generalize (conditions p args).run e = r at hargs h
    obtain ⟨r, e₁⟩ := r
    cases r with
    | error err' =>
      cases h
      exact hargs rfl
    | ok ls =>
      cases hc : Connective.ofName? name with
      | none =>
        rw [hc] at h
        cases h
        exact hx
      | some c =>
        rw [hc] at h
        dsimp only at h
        cases hresult : ((connect c p ls).run e₁).1 with
        | error reason =>
          rw [hresult] at h
          cases h
          exact hx
        | ok l =>
          rw [hresult] at h
          cases h
  | .list _ [], hx, h => by
    rw [condition_nil_eq] at h
    cases h
    exact hx
  | .list _ (.list _ _ :: _), hx, h => by
    rw [condition_nested_eq] at h
    cases h
    exact hx

theorem conditions_blames {e : Encoding} : {xs : List (SExpr α)} → (∀ x ∈ xs, Occurs ts x) →
    ((conditions p xs).run e).1 = .error err → Occurs ts err.expr
  | [], _, h => by
    rw [conditions] at h
    cases h
  | x :: xs, hxs, h => by
    have hx := condition_blames (e := e) (hxs x List.mem_cons_self)
    rw [conditions_cons_eq] at h
    generalize (condition p x).run e = r at hx h
    obtain ⟨r, e₁⟩ := r
    cases r with
    | error err' =>
      cases h
      exact hx rfl
    | ok l =>
      dsimp only at h
      have hrest := conditions_blames (e := e₁) fun y hy => hxs y (List.mem_cons_of_mem x hy)
      cases hresult : ((conditions p xs).run e₁).1 with
      | error err' =>
        rw [hresult] at h hrest
        cases h
        exact hrest rfl
      | ok ls =>
        rw [hresult] at h
        cases h

end

end Encoding

namespace Model

open Encoding SExpr

/-- A mistake stands where a term of the text does. -/
def Blames (ts : List Term) (e : SyntaxError) : Prop := ∃ t, Occurs ts t ∧ e.span = t.note

/-- The ways in which an expression is added to a machine, and whether it may mention next forms. -/
inductive Addition : Bool → (Machine → Lit → StateM Encoding Machine) → Prop
  | init : Addition false Machine.addInit
  | invar : Addition false Machine.addInvar
  | trans : Addition true Machine.addTrans
  | fairness : Addition false fun m l => return m.addFairness l

/-- One step of reading some terms. -/
inductive Step (ts : List Term) (r : Reading) : Reading → Prop
  | declare {span : Span} {name : String} (h : Occurs ts (.symbol span name)) (isInput : Bool) :
      Step ts r { r with encoding := (declare isInput name r.encoding).2 }
  | convert {t : Term} (h : Occurs ts t) (p : Bool) :
      Step ts r { r with encoding := ((condition p t).run r.encoding).2 }
  | constrain {t : Term} (h : Occurs ts t) {p : Bool}
      {add : Machine → Lit → StateM Encoding Machine} (hadd : Addition p add) {l : Lit}
      (hl : ((condition p t).run r.encoding).1 = .ok l) :
      Step ts r { r with
        encoding := (add r.machine l ((condition p t).run r.encoding).2).2
        machine := (add r.machine l ((condition p t).run r.encoding).2).1 }
  | tabulate (table : Table) : Step ts r { r with table := table }
  | specify (name : String) (f : Formula) :
      Step ts r { r with machine := r.machine.addSpec name f }
  | invariant (name : String) (l : Lit) :
      Step ts r { r with machine := r.machine.addInvariant name l }
  | blame {es : List SyntaxError} (h : ∀ e ∈ es, Blames ts e) :
      Step ts r { r with errors := r.errors ++ es }

abbrev Steps (ts : List Term) : Reading → Reading → Prop := Relation.ReflTransGen (Step ts)

theorem Steps.keep {ts : List Term} {P : Reading → Prop}
    (hstep : ∀ {r r' : Reading}, Step ts r r' → P r → P r') {r r' : Reading} (h : Steps ts r r')
    (hr : P r) : P r' := by
  induction h with
  | refl => exact hr
  | tail _ h ih => exact hstep h ih

theorem Step.errors {ts : List Term} {r r' : Reading} (h : Step ts r r') :
    ∃ es, r'.errors.toList = r.errors.toList ++ es ∧ ∀ e ∈ es, Blames ts e := by
  have hnone : ∃ es, r.errors.toList = r.errors.toList ++ es ∧ ∀ e ∈ es, Blames ts e :=
    ⟨[], (List.append_nil _).symm, fun _ he => absurd he List.not_mem_nil⟩
  cases h with
  | @blame es h => exact ⟨es, Array.toList_appendList, h⟩
  | declare => exact hnone
  | convert => exact hnone
  | constrain => exact hnone
  | tabulate => exact hnone
  | specify => exact hnone
  | invariant => exact hnone

/-- A part of the reader runs in steps. -/
def Runs {α : Type} (ts : List Term) (m : Read α) : Prop := ∀ r : Reading, Steps ts r (m r).2

section

variable {α β : Type} {ts : List Term}

theorem runs_pure (a : α) : Runs ts (pure a : Read α) := fun _ => .refl

theorem runs_get : Runs ts (get : Read Reading) := fun _ => .refl

theorem Runs.bind {m : Read α} {f : α → Read β} (hm : Runs ts m) (hf : ∀ a, Runs ts (f a)) :
    Runs ts (m >>= f) := fun r => (hm r).trans (hf _ _)

theorem runs_forM {f : α → Read Unit} (as : List α) (hf : ∀ a ∈ as, Runs ts (f a)) :
    Runs ts (as.forM f) := by
  induction as with
  | nil => exact runs_pure _
  | cons a as ih =>
    exact (hf a List.mem_cons_self).bind fun _ => ih fun b hb => hf b (List.mem_cons_of_mem a hb)

theorem runs_ite {c : Prop} [Decidable c] {m m' : Read α} (hm : c → Runs ts m)
    (hm' : ¬ c → Runs ts m') : Runs ts (if c then m else m') := by
  by_cases hc : c
  · rw [if_pos hc]
    exact hm hc
  · rw [if_neg hc]
    exact hm' hc

theorem runs_report {t : Term} (h : Occurs ts t) (message : String) :
    Runs ts (report t.note message) := fun r => by
  have hblames : ∀ e ∈ [SyntaxError.mk t.note message], Blames ts e := by
    intro e he
    obtain rfl := List.mem_singleton.1 he
    exact ⟨t, h, rfl⟩
  exact .single (.blame hblames)

theorem bind_apply (m : Read α) (k : α → Read β) (r : Reading) :
    (m >>= k) r = k (m r).1 (m r).2 := rfl

theorem runs_declareItem {item : Term} (h : Occurs ts item) (isInput : Bool) :
    Runs ts (declareItem isInput item) := by
  cases item with
  | list span items => exact runs_report h _
  | symbol span name =>
    intro r
    refine .trans (.single (.declare h isInput)) ?_
    have hdeclared : onEncoding (declare isInput name) r =
      ((declare isInput name r.encoding).1,
        { r with encoding := (declare isInput name r.encoding).2 }) := rfl
    rw [declareItem, bind_apply, hdeclared]
    cases (declare isInput name r.encoding).1 with
    | ok x => exact .refl
    | error err => exact runs_report h _ _

theorem runs_readVariables {t : Term} (h : Occurs ts t) : Runs ts (readVariables t) := by
  cases t with
  | symbol span name => exact runs_report h _
  | list span items =>
    refine runs_ite (fun _ => runs_report h _) fun _ => runs_ite (fun _ => ?_) fun _ => runs_pure _
    refine runs_ite (fun _ => runs_report h _) fun _ => runs_forM _ fun item hitem => ?_
    exact runs_declareItem (h.item (List.mem_of_mem_tail hitem)) _

theorem readCondition_eq (p : Bool) (t : Term) (r : Reading) :
    readCondition p t r = match (condition p t).run r.encoding with
      | (.ok l, e) => (some l, { r with encoding := e })
      | (.error err, e) => (none, { r with
          encoding := e, errors := r.errors.push ⟨err.expr.note, err.message⟩ }) := by
  rw [readCondition, bind_apply]
  have hconverted : onEncoding (condition p t).run r =
      (((condition p t).run r.encoding).1,
        { r with encoding := ((condition p t).run r.encoding).2 }) := rfl
  rw [hconverted]
  cases (condition p t).run r.encoding with
  | mk result e => cases result <;> rfl

theorem runs_readCondition {t : Term} (h : Occurs ts t) (p : Bool) :
    Runs ts (readCondition p t) := by
  intro r
  have hconvert := Step.convert (r := r) h p
  have hblames : ∀ err, ((condition p t).run r.encoding).1 = .error err → Occurs ts err.expr :=
    fun _ => condition_blames h
  rw [readCondition_eq]
  cases hr : (condition p t).run r.encoding with
  | mk result e =>
    rw [hr] at hconvert hblames
    cases result with
    | ok l => exact .single hconvert
    | error err =>
      exact .trans (.single hconvert) (runs_report (hblames err rfl) _ { r with encoding := e })

theorem runs_readConstraint {span : Span} {items : List Term} (h : Occurs ts (.list span items))
    (head : String) {p : Bool} {add : Machine → Lit → StateM Encoding Machine}
    (hadd : Addition p add) : Runs ts (readConstraint span head items p add) := by
  unfold readConstraint
  split
  · rename_i t
    have ht : Occurs ts t := h.item (by simp)
    intro r
    have hread := runs_readCondition ht p r
    have hconstrain := fun l => Step.constrain (r := r) ht hadd (l := l)
    rw [bind_apply, readCondition_eq] at *
    cases hr : (condition p t).run r.encoding with
    | mk result e =>
      rw [hr] at hread hconstrain
      cases result with
      | error err => exact hread
      | ok l => exact .single (hconstrain l rfl)
  · exact runs_report h _

theorem mem_of_property? {standard name : String} {items : List Term} {t : Term}
    (h : property? standard items = some (name, t)) : t ∈ items := by
  unfold property? at h
  split at h
  · cases h
    simp
  · cases h
    simp
  · cases h

theorem blames_of_mistakes {t : Term} (h : Occurs ts t) :
    ∀ e ∈ mistakes t.positions, Blames ts e := by
  intro e he
  obtain ⟨u, hu, rfl⟩ := List.mem_map.1 he
  exact ⟨u, h.of_mem_positions (List.mem_of_mem_filter hu), rfl⟩

theorem runs_readSpec {span : Span} {items : List Term} (h : Occurs ts (.list span items)) :
    Runs ts (readSpec span items) := by
  refine runs_get.bind fun r₀ => ?_
  split
  · exact runs_report h _
  · rename_i name t hproperty
    have ht := h.item (mem_of_property? hproperty)
    intro r
    have hreports := Table.interpret_reports r.table t
    refine .head (.tabulate (Table.interpret t r.table).2) ?_
    have hinterpreted : onTable (Table.interpret t) r =
      ((Table.interpret t r.table).1, { r with table := (Table.interpret t r.table).2 }) := rfl
    rw [bind_apply, hinterpreted]
    cases hf : (Table.interpret t r.table).1.1 with
    | error es =>
      rw [hf] at hreports
      exact .single (.blame (hreports.1 ▸ blames_of_mistakes ht))
    | ok f => exact .single (.specify name f)

theorem runs_readInvariant {span : Span} {items : List Term} (h : Occurs ts (.list span items)) :
    Runs ts (readInvariant span items) := by
  refine runs_get.bind fun r₀ => ?_
  split
  · exact runs_report h _
  · rename_i name t hproperty
    have ht := h.item (mem_of_property? hproperty)
    refine (runs_readCondition ht false).bind fun result => ?_
    cases result with
    | none => exact runs_pure _
    | some l =>
      refine runs_get.bind fun r₁ => runs_ite (fun _ r => ?_) fun _ => runs_report ht _
      exact .single (.invariant name l)

theorem runs_readDeclaration {t : Term} (h : Occurs ts t) : Runs ts (readDeclaration t) := by
  unfold readDeclaration
  split
  · exact runs_pure _
  · split
    · exact runs_pure _
    · exact runs_pure _
    · exact runs_readConstraint h _ .init
    · exact runs_readConstraint h _ .invar
    · exact runs_readConstraint h _ .trans
    · exact runs_readConstraint h _ .fairness
    · exact runs_readConstraint h _ .fairness
    · exact runs_readSpec h
    · exact runs_readInvariant h
    · exact runs_report h _

theorem runs_readTerms (ts : List Term) : Runs ts (readTerms ts) := by
  refine (runs_forM ts fun t ht => runs_readVariables (.top ht)).bind fun _ =>
    runs_get.bind fun _ => runs_ite (fun _ => ?_) fun _ => runs_pure _
  exact runs_forM ts fun t ht => runs_readDeclaration (.top ht)

end

theorem read_run {s : Source} {ts : List Term} (hts : s.terms = .ok ts) (t : Table) :
    read s t = (if (readTerms ts { table := t }).2.errors.isEmpty then
        .ok ⟨(readTerms ts { table := t }).2.encoding, (readTerms ts { table := t }).2.machine⟩
      else .error (readTerms ts { table := t }).2.errors.toList,
      (readTerms ts { table := t }).2.table) := by
  unfold read
  rw [hts]
  change (if (readTerms ts { table := t }).2.errors.isEmpty then
    (return Except.ok ⟨(readTerms ts { table := t }).2.encoding,
      (readTerms ts { table := t }).2.machine⟩ : StateM Table (Except (List SyntaxError) Model))
    else return Except.error (readTerms ts { table := t }).2.errors.toList) _ = _
  split <;> rfl

theorem read_eq {s : Source} {ts : List Term} (hts : s.terms = .ok ts) (t : Table) :
    (read s t).1 = if (readTerms ts { table := t }).2.errors.isEmpty then
        .ok ⟨(readTerms ts { table := t }).2.encoding, (readTerms ts { table := t }).2.machine⟩
      else .error (readTerms ts { table := t }).2.errors.toList := by
  rw [read_run hts]

/-- What holds at the start and is kept by every step holds of every model that is read. -/
theorem holds_of_read {s : Source} {t : Table} {M : Model} (h : (read s t).1 = .ok M)
    {P : Reading → Prop} (hstart : P { table := t })
    (hstep : ∀ ts, s.terms = .ok ts → ∀ {r r' : Reading}, Step ts r r' → P r → P r') :
    ∃ r, P r ∧ r.encoding = M.encoding ∧ r.machine = M.machine := by
  cases hts : s.terms with
  | error err =>
    unfold read at h
    rw [hts] at h
    cases h
  | ok ts =>
    have hend := (runs_readTerms ts { table := t }).keep (hstep ts hts) hstart
    rw [read_eq hts] at h
    split at h
    · cases h
      exact ⟨_, hend, rfl, rfl⟩
    · cases h

end Model

end Lasso
