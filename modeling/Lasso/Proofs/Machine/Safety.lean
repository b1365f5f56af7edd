import Lasso.Proofs.Machine.Access
import Lasso.Proofs.Machine.Reading

/-! # Reading a model never breaks off

The second pass over a model takes terms for lists on the strength of what the first pass has seen,
and mistakes are reported at terms that must have a span.  No such access ever fails, for any text.
-/

namespace Lasso

set_option autoImplicit false

namespace Checked

open Encoding

section

variable (m : SpanMap Nat)

/-- What is read of a model, which may crash. -/
abbrev ReadM := StateT Model.Reading (Except Crash)

/-- Reports a mistake at a term, which must have a span. -/
def report (x : SExpr Nat) (message : String) : ReadM Unit := do
  match m.errorAt? x.note message with
  | some e => modify fun r => { r with errors := r.errors.push e }
  | none => throw (.key (.missing x.note))

def declareItem (input : Bool) (x : SExpr Nat) : ReadM Unit := do
  match x.symbol? with
  | none => report m x "invalid variable name"
  | some name =>
    match ← plain (Model.onEncoding (declare input name)) with
    | .ok _ => return
    | .error e => report m x e.message

def readVariables (x : SExpr Nat) : ReadM Unit := do
  match x.items? with
  | none => report m x "invalid declaration"
  | some items =>
    if items.length = 0 ∨ SExpr.headName items = "" then report m x "invalid declaration"
    else if SExpr.headName items ≠ "var" ∧ SExpr.headName items ≠ "input" then return
    else if items.length = 1 then report m x "expected one or more variables"
    else (← after items 1).forM (declareItem m (SExpr.headName items = "input"))

def readCondition (permitNext : Bool) (x : SExpr Nat) : ReadM (Option Lit) := fun r => do
  let (result, encoding) ← condition permitNext x r.encoding
  let r := { r with encoding := encoding }
  match result with
  | .ok l => return (some l, r)
  | .error e => (report m e.expr e.message >>= fun _ => return none) r

def readConstraint (x : SExpr Nat) (head : String) (items : List (SExpr Nat)) (permitNext : Bool)
    (add : Machine → Lit → StateM Encoding Machine) : ReadM Unit := do
  if items.length ≠ 2 then report m x (head ++ " requires exactly one expression")
  else
    match ← readCondition m permitNext (← item items 1) with
    | none => return
    | some l => plain (do Model.setMachine (← Model.onEncoding (add (← get).machine l)))

def property? (standard : String) (items : List (SExpr Nat)) :
    Except Crash (Option (String × SExpr Nat)) := do
  if items.length = 2 then return some (standard, ← item items (items.length - 1))
  if items.length = 3 then
    match (← item items 1).symbol? with
    | some name => return some (name, ← item items (items.length - 1))
    | none => return none
  return none

def enter (r : Interpreter.Outcome Formula × SpanMap Formula) :
    StateM Table (Interpreter.Outcome Formula × SpanMap Formula) := do
  let spans ← Table.internSpans r.2
  match r.1 with
  | .ok f => return (.ok (← Table.intern f), spans)
  | .error es => return (.error es, spans)

def readSpec (x : SExpr Nat) (items : List (SExpr Nat)) : ReadM Unit := do
  match ← property? ("spec_" ++ toString (← get).machine.specs.size) items with
  | none => report m x "expected (ltlspec [name] formula)"
  | some (name, body) =>
    match (← plain (Model.onTable (enter (← interpret m body ∅)))).1 with
    | .error es => modify fun r => { r with errors := r.errors ++ es }
    | .ok f => plain (do Model.setMachine ((← get).machine.addSpec name f))

def readInvariant (x : SExpr Nat) (items : List (SExpr Nat)) : ReadM Unit := do
  match ← property? ("invar_" ++ toString (← get).machine.invariants.size) items with
  | none => report m x "expected (invarspec [name] expression)"
  | some (name, body) =>
    match ← readCondition m false body with
    | none => return
    | some l =>
      if (← get).encoding.isStateExpr l then
        plain (do Model.setMachine ((← get).machine.addInvariant name l))
      else report m body "invariant cannot mention input variables"

def readDeclaration (x : SExpr Nat) : ReadM Unit := do
  match x.items? with
  | none => throw .noList
  | some items =>
    match SExpr.headName items with
    | "var" | "input" => return
    | "init" => readConstraint m x "init" items false Machine.addInit
    | "invar" => readConstraint m x "invar" items false Machine.addInvar
    | "trans" => readConstraint m x "trans" items true Machine.addTrans
    | "fairness" => readConstraint m x "fairness" items false fun m l => return m.addFairness l
    | "justice" => readConstraint m x "justice" items false fun m l => return m.addFairness l
    | "ltlspec" => readSpec m x items
    | "invarspec" => readInvariant m x items
    | head => report m x ("unknown declaration \"" ++ head ++ "\"")

def readTerms (xs : List (SExpr Nat)) : ReadM Unit := do
  xs.forM (readVariables m)
  if (← get).errors.isEmpty then xs.forM (readDeclaration m)

end

def read (s : Source) (table : Table) :
    Except Crash (Except (List SyntaxError) Model × Table) := do
  match ← readMany s.text.length (Token.ofText s.text) {} with
  | (.error e, _) => return (.error [e], table)
  | (.ok xs, registry) =>
    let (_, r) ← readTerms registry.spans xs { table := table }
    if r.errors.isEmpty then return (.ok ⟨r.encoding, r.machine⟩, r.table)
    else return (.error r.errors.toList, r.table)

section

variable {m : SpanMap Nat} {x : SExpr Nat} {t : Term} {xs : List (SExpr Nat)} {ts : List Term}

theorem report_agrees (h : m.Places x t) (message : String) :
    Agrees (report m x message) (Model.report t.note message) := by
  intro r
  rw [report, SpanMap.errorAt?, h.get?_note]
  rfl

theorem declareItem_agrees (h : m.Places x t) (input : Bool) :
    Agrees (declareItem m input x) (Model.declareItem input t) := by
  cases x with
  | list n items =>
    obtain ⟨span, ts, -, -, rfl⟩ := SpanMap.places_list_iff.1 h
    exact report_agrees h _
  | symbol n name =>
    obtain ⟨span, -, rfl⟩ := SpanMap.places_symbol_iff.1 h
    refine (agrees_plain (Model.onEncoding (declare input name))).bind fun result => ?_
    cases result with
    | ok v => exact agrees_pure _
    | error e => exact report_agrees h _

theorem after_one {α : Type} {as : List α} (h : as ≠ []) : after as 1 = .ok as.tail := by
  have hlength : 1 ≤ as.length := List.length_pos_iff.2 h
  rw [after, if_pos hlength, List.drop_one]

theorem tail_places (h : List.Forall₂ m.Places xs ts) :
    List.Forall₂ m.Places xs.tail ts.tail := by
  cases h with
  | nil => exact .nil
  | cons _ h => exact h

theorem readVariables_agrees (h : m.Places x t) :
    Agrees (readVariables m x) (Model.readVariables t) := by
  cases x with
  | symbol n name =>
    obtain ⟨span, -, rfl⟩ := SpanMap.places_symbol_iff.1 h
    exact report_agrees h _
  | list n items =>
    obtain ⟨span, ts, -, hitems, rfl⟩ := SpanMap.places_list_iff.1 h
    simp only [readVariables, SExpr.items?, Model.readVariables, headName_eq hitems,
      hitems.length_eq]
    by_cases hhead : SExpr.headName ts = ""
    · rw [if_pos (.inr hhead), if_pos hhead]
      exact report_agrees h _
    have hne : ts ≠ [] := by
      rintro rfl
      exact hhead rfl
    have hne' : items ≠ [] := by
      rintro rfl
      exact hne (List.forall₂_nil_left_iff.1 hitems)
    rw [if_neg (not_or.2 ⟨fun hlength => hne (List.length_eq_zero_iff.1 hlength), hhead⟩),
      if_neg hhead]
    by_cases hvar : SExpr.headName ts = "var" ∨ SExpr.headName ts = "input"
    · rw [if_neg (fun hnot => hvar.elim hnot.1 hnot.2), if_pos hvar]
      refine .ite (fun _ => report_agrees h _) fun _ => .access (after_one hne') ?_
      exact agrees_forM (tail_places hitems) fun y u _ hitem => declareItem_agrees hitem _
    · rw [if_pos (not_or.1 hvar), if_neg hvar]
      exact agrees_pure _

theorem readCondition_agrees (h : m.Places x t) (p : Bool) :
    Agrees (readCondition m p x) (Model.readCondition p t) := by
  intro r
  obtain ⟨hencoding, hresult⟩ := condition_places h p r.encoding
  unfold readCondition
  rw [Model.readCondition_eq, condition_agrees]
  cases hx : (Encoding.condition p x).run r.encoding with
  | mk result e =>
  cases ht : (Encoding.condition p t).run r.encoding with
  | mk result' e' =>
  rw [hx, ht] at hencoding hresult
  obtain rfl : e = e' := hencoding
  obtain ⟨l, hl, hl'⟩ | ⟨err, err', herr, herr', hplaces, hmessage⟩ := hresult
  · obtain rfl : result = .ok l := hl
    obtain rfl : result' = .ok l := hl'
    rfl
  · obtain rfl : result = .error err := herr
    obtain rfl : result' = .error err' := herr'
    have hreport : Agrees (report m err.expr err.message)
        (Model.report err'.expr.note err'.message) := hmessage ▸ report_agrees hplaces _
    exact hreport.bind (fun _ => agrees_pure (none : Option Lit)) { r with encoding := e }

theorem readConstraint_agrees {span : Span} (h : m.Places x (.list span ts))
    (hitems : List.Forall₂ m.Places xs ts) (head : String) (p : Bool)
    (add : Machine → Lit → StateM Encoding Machine) :
    Agrees (readConstraint m x head xs p add) (Model.readConstraint span head ts p add) := by
  match xs, ts, hitems with
  | [], [], _ | [_], [_], _ | _ :: _ :: _ :: _, _ :: _ :: _ :: _, _ => exact report_agrees h _
  | [x', y], [_, u], .cons _ (.cons hy .nil) =>
    have htwo : ¬ [x', y].length ≠ 2 := not_not_intro rfl
    rw [readConstraint, Model.readConstraint, if_neg htwo]
    refine .access rfl ((readCondition_agrees hy p).bind fun result => ?_)
    cases result with
    | none => exact agrees_pure _
    | some l => exact agrees_plain _

theorem property_eq (h : List.Forall₂ m.Places xs ts) (standard : String) :
    (property? standard xs = .ok none ∧ Model.property? standard ts = none) ∨
      ∃ name y u, property? standard xs = .ok (some (name, y)) ∧
        Model.property? standard ts = some (name, u) ∧ m.Places y u := by
  match xs, ts, h with
  | [], [], _ | [_], [_], _ | _ :: _ :: _ :: _ :: _, _ :: _ :: _ :: _ :: _, _ =>
    exact .inl ⟨rfl, rfl⟩
  | [_, y], [_, u], .cons _ (.cons hy .nil) => exact .inr ⟨standard, y, u, rfl, rfl, hy⟩
  | [_, .symbol n name, y], [_, w, u], .cons _ (.cons hname (.cons hy .nil)) =>
    obtain ⟨span, -, rfl⟩ := SpanMap.places_symbol_iff.1 hname
    exact .inr ⟨name, y, u, rfl, rfl, hy⟩
  | [_, .list n items, y], [_, w, u], .cons _ (.cons hlist (.cons hy .nil)) =>
    obtain ⟨span, ts, -, -, rfl⟩ := SpanMap.places_list_iff.1 hlist
    exact .inl ⟨rfl, rfl⟩

theorem interpret_enter (t : Term) :
    Table.interpret t = enter (Formula.interpreter.interpret t ∅) := by
  funext table
  rw [Table.interpret, enter]
  rfl

theorem readSpec_agrees {span : Span} (h : m.Places x (.list span ts))
    (hitems : List.Forall₂ m.Places xs ts) :
    Agrees (readSpec m x xs) (Model.readSpec span ts) := by
  refine Agrees.bind (fun _ => rfl) fun r => ?_
  obtain ⟨hnone, hnone'⟩ | ⟨name, y, u, hsome, hsome', hy⟩ := property_eq hitems
    ("spec_" ++ toString r.machine.specs.size)
  · rw [hnone']
    exact .access hnone (report_agrees h _)
  rw [hsome']
  refine .access hsome (.access (interpret_agrees hy ∅) ?_)
  rw [← interpret_enter]
  refine (agrees_plain (Model.onTable (Table.interpret u))).bind fun outcome => ?_
  cases outcome.1 with
  | error es => exact fun _ => rfl
  | ok f => exact agrees_plain _

theorem readInvariant_agrees {span : Span} (h : m.Places x (.list span ts))
    (hitems : List.Forall₂ m.Places xs ts) :
    Agrees (readInvariant m x xs) (Model.readInvariant span ts) := by
  refine Agrees.bind (fun _ => rfl) fun r => ?_
  obtain ⟨hnone, hnone'⟩ | ⟨name, y, u, hsome, hsome', hy⟩ := property_eq hitems
    ("invar_" ++ toString r.machine.invariants.size)
  · rw [hnone']
    exact .access hnone (report_agrees h _)
  rw [hsome']
  refine .access hsome ((readCondition_agrees hy false).bind fun result => ?_)
  cases result with
  | none => exact agrees_pure _
  | some l =>
    refine Agrees.bind (fun _ => rfl) fun r' => .ite (fun _ => agrees_plain _) fun _ => ?_
    exact report_agrees hy _

/-- A term that the first pass did not report is a list. -/
theorem readDeclaration_agrees {span : Span} (h : m.Places x (.list span ts)) :
    Agrees (readDeclaration m x) (Model.readDeclaration (.list span ts)) := by
  cases x with
  | symbol n name =>
    obtain ⟨_, -, hlist⟩ := SpanMap.places_symbol_iff.1 h
    cases hlist
  | list n xs =>
    obtain ⟨_, _, -, hitems, hlist⟩ := SpanMap.places_list_iff.1 h
    cases hlist
    simp only [readDeclaration, SExpr.items?, Model.readDeclaration, headName_eq hitems]
    generalize SExpr.headName ts = head
    split
    · exact agrees_pure _
    · exact agrees_pure _
    · exact readConstraint_agrees h hitems _ _ _
    · exact readConstraint_agrees h hitems _ _ _
    · exact readConstraint_agrees h hitems _ _ _
    · exact readConstraint_agrees h hitems _ _ _
    · exact readConstraint_agrees h hitems _ _ _
    · exact readSpec_agrees h hitems
    · exact readInvariant_agrees h hitems
    · simpa only [SExpr.note, *] using report_agrees h _

-- A symbol would be taken for a list if the first pass let it through.
example (n : Nat) (name : String) (r : Model.Reading) :
    readDeclaration m (.symbol n name) r = .error .noList := rfl

theorem exists_list_of_readVariables {us : List Term} (hus : ∀ u ∈ us, SExpr.Occurs ts u)
    {r : Model.Reading} (h : (us.forM Model.readVariables r).2.errors = #[]) :
    ∀ u ∈ us, ∃ span items, u = .list span items := by
  induction us generalizing r with
  | nil => exact fun _ hu => absurd hu List.not_mem_nil
  | cons u us ih =>
    have hus' : ∀ v ∈ us, SExpr.Occurs ts v := fun v hv => hus v (List.mem_cons_of_mem u hv)
    have hruns := Model.runs_forM us fun v hv => Model.runs_readVariables (hus' v hv)
    rintro v (_ | ⟨_, hv⟩)
    · cases u with
      | list span items => exact ⟨span, items, rfl⟩
      | symbol span name =>
        have hkept : ∀ {r r' : Model.Reading}, Model.Step ts r r' → r.errors ≠ #[] →
            r'.errors ≠ #[] := by
          intro r r' hstep hr hnone
          obtain ⟨es, hes, -⟩ := hstep.errors
          rw [hnone] at hes
          exact hr (Array.toList_eq_nil_iff.1 (List.append_eq_nil_iff.1 hes.symm).1)
        -- the mistake that is reported here is still there in the end
        have hreported : (Model.readVariables (.symbol span name) r).2.errors ≠ #[] :=
          Array.push_ne_empty
        exact absurd h ((hruns _).keep hkept hreported)
    · exact ih hus' h v hv

theorem readTerms_agrees (h : List.Forall₂ m.Places xs ts) :
    Agrees (readTerms m xs) (Model.readTerms ts) := by
  intro r
  have hfirst := agrees_forM h (fun _ _ _ => readVariables_agrees) r
  have hlists := exists_list_of_readVariables (fun _ => .top : ∀ u ∈ ts, _) (r := r)
  have hsecond : Agrees
      (if (ts.forM Model.readVariables r).2.errors.isEmpty then xs.forM (readDeclaration m)
        else pure ())
      (if (ts.forM Model.readVariables r).2.errors.isEmpty then ts.forM Model.readDeclaration
        else pure ()) := by
    refine .ite (fun hnone => ?_) fun _ => agrees_pure _
    refine agrees_forM h fun x t ht hx => ?_
    obtain ⟨span, items, rfl⟩ := hlists (Array.isEmpty_iff.1 hnone) t ht
    exact readDeclaration_agrees hx
  change ((xs.forM (readVariables m)) r).bind _ = _
  rw [hfirst]
  exact hsecond _

end

/-- Reading with accesses that may fail is reading. -/
theorem read_eq (s : Source) (table : Table) : read s table = .ok (Model.read s table) := by
  obtain ⟨out, registry, hrun, -, -, hout⟩ :=
    readMany_safe s.text.length (Token.pairwise_ofText s.text) Registry.fresh_empty
  rw [read, hrun]
  change OutcomeFor _ out s.terms at hout
  cases hterms : s.terms with
  | error e =>
    rw [hterms, outcomeFor_error_iff] at hout
    rw [hout, Model.read, hterms]
    rfl
  | ok ts =>
    rw [hterms] at hout
    obtain ⟨xs, rfl, hxs⟩ := outcomeFor_ok_iff.1 hout
    rw [Model.read_run hterms]
    change (readTerms registry.spans xs { table := table }).bind _ = _
    rw [readTerms_agrees hxs]
    generalize Model.readTerms ts { table := table } = result
    change (if result.2.errors.isEmpty then _ else _) = _
    split <;> rfl

end Checked

namespace Model

open SExpr

/-- A mistake covers a character of the text or its end.  In a text that has terms it covers one of
them, which is what is read from the part of the text that it covers. -/
structure Located (s : Source) (e : SyntaxError) : Prop where
  start : 0 ≤ e.span.start ∧ e.span.start ≤ s.text.length
  stop : e.span.start < e.span.stop ∧ e.span.stop ≤ s.text.length + 1
  term : ∀ ts, s.terms = .ok ts → ∃ t, Occurs ts t ∧ e.span = t.note ∧
    ∃ u, (Source.mk s.name (e.span.slice s.text)).term = .ok u ∧ u.erase = t.erase

theorem located_of_blames {s : Source} {ts : List Term} (hts : s.terms = .ok ts) {e : SyntaxError}
    (h : Blames ts e) : Located s e := by
  obtain ⟨t, ht, hspan⟩ := h
  obtain ⟨hstart, hlt, hstop⟩ := ht.span_within hts
  rw [← hspan] at hstart hlt hstop
  refine ⟨⟨hstart, by omega⟩, ⟨hlt, by omega⟩, fun ts' hts' => ?_⟩
  obtain rfl : ts = ts' := Except.ok.inj (hts.symm.trans hts')
  have hreads := s.terms_reads
  rw [hts] at hreads
  refine ⟨t, ht, hspan, ?_⟩
  rw [hspan]
  exact Source.exists_term_slice (ht.placed hreads.2) (hreads.1 ▸ ht.tokens_infix) s.name

theorem located_of_error {s : Source} {e : SyntaxError} (h : s.terms = .error e) :
    Located s e := by
  have hreads := s.terms_reads
  rw [h] at hreads
  obtain ⟨p, hp, hspan⟩ : ∃ p ≤ s.text.length, e.span = Span.single p := by
    obtain ⟨us, p, vs, hts, -, rfl⟩ | ⟨-, rfl⟩ := hreads
    · have hstands : Token.Stands s.text (.closing p) := by
        rw [← Token.mem_ofText_iff, hts]
        simp
      exact ⟨p, Nat.le_of_succ_le hstands.stop_le, rfl⟩
    · exact ⟨s.text.length, Nat.le_refl _, rfl⟩
  refine ⟨?_, ?_, fun ts hts => ?_⟩
  · rw [hspan, Span.single]
    dsimp only
    omega
  · rw [hspan, Span.single]
    dsimp only
    omega
  · rw [h] at hts
    cases hts

theorem blames_of_errors {ts : List Term} {t : Table} {e : SyntaxError}
    (he : e ∈ (readTerms ts { table := t }).2.errors) : Blames ts e := by
  have hstep : ∀ {r r' : Reading}, Step ts r r' → (∀ e ∈ r.errors, Blames ts e) →
      ∀ e ∈ r'.errors, Blames ts e := by
    intro r r' h hr e he
    obtain ⟨es, hes, hblames⟩ := h.errors
    rw [← Array.mem_toList_iff, hes, List.mem_append] at he
    exact he.elim (fun he => hr e (Array.mem_toList_iff.1 he)) (hblames e)
  exact (runs_readTerms ts { table := t }).keep hstep (by simp) e he

/-- Reading a text as a model never breaks off: no term is given an identity twice, no span ends
before it starts, no term is without a span where one is asked for, no symbol is taken for a list,
and no item is asked of a list that it does not have.  It gives a model, or mistakes that are at
terms of the text or where its parentheses do not match. -/
theorem read_never_crashes (s : Source) (table : Table) :
    Checked.read s table = .ok (read s table) ∧
      ((∃ M, (read s table).1 = .ok M) ∨
        ∃ es, (read s table).1 = .error es ∧ es ≠ [] ∧ ∀ e ∈ es, Located s e) := by
  refine ⟨Checked.read_eq s table, ?_⟩
  cases hts : s.terms with
  | error e =>
    have hread : (read s table).1 = .error [e] := by
      rw [read, hts]
      rfl
    refine .inr ⟨[e], hread, List.cons_ne_nil _ _, fun e' he' => ?_⟩
    obtain rfl := List.mem_singleton.1 he'
    exact located_of_error hts
  | ok ts =>
    rw [read_eq hts]
    by_cases hnone : (readTerms ts { table := table }).2.errors.isEmpty
    · rw [if_pos hnone]
      exact .inl ⟨_, rfl⟩
    · rw [if_neg hnone]
      refine .inr ⟨_, rfl, fun hnil => hnone ?_, fun e he => ?_⟩
      · exact Array.isEmpty_iff.2 (Array.toList_eq_nil_iff.1 hnil)
      · exact located_of_blames hts (blames_of_errors (Array.mem_toList_iff.1 he))

end Model

end Lasso
