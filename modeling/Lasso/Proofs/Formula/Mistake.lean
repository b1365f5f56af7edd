import Lasso.Proofs.Formula.Reading

/-! # Mistakes in formulas

A list in formula position offends if it is empty or has too few or too many operands for the
operator at its head.  A text is read as a formula if none does.  Otherwise the lists to blame are
those with no offending list beneath them, in the order of the text.
-/

namespace Lasso

set_option autoImplicit false

namespace Operator

def takes : Operator → Nat → Bool
  | .atom, _ => false
  | .unary _, n => n == 1
  | .binary .and, n | .binary .or, n => 2 ≤ n
  | .binary _, n => n == 2

def demand : Operator → String
  | .unary _ => " requires exactly one argument"
  | .binary .and | .binary .or => " requires at least two arguments"
  | _ => " requires exactly two arguments"

end Operator

namespace Formula

theorem apply_reports (op : Operator) (name : String) (args : List Formula) :
    if op.takes args.length then ∃ f, apply op name args = .ok f
    else apply op name args = .error (name ++ op.demand) := by
  have hcount : args = [] ∨ (∃ f, args = [f]) ∨ (∃ f g, args = [f, g]) ∨
      ∃ f g h rest, args = f :: g :: h :: rest := by
    rcases args with _ | ⟨f, _ | ⟨g, _ | ⟨h, rest⟩⟩⟩ <;> simp
  cases op with
  | atom => rfl
  | unary op =>
    obtain rfl | ⟨f, rfl⟩ | ⟨f, g, rfl⟩ | ⟨f, g, h, rest, rfl⟩ := hcount <;>
      simp [Operator.takes, apply, Operator.demand]
  | binary op =>
    obtain rfl | ⟨f, rfl⟩ | ⟨f, g, rfl⟩ | ⟨f, g, h, rest, rfl⟩ := hcount <;> cases op <;>
      simp [Operator.takes, apply, Operator.demand]

end Formula

namespace SExpr

variable {α : Type}

/-- A list that is no formula, whatever its operands are. -/
def offends : SExpr α → Bool
  | .symbol _ _ => false
  | .list _ [] => true
  | .list _ (head :: args) =>
    (Operator.ofName? (headName (head :: args))).any fun op => !op.takes args.length

/-- A list that offends, with nothing beneath it that does. -/
def innermost (e : SExpr α) : Bool := e.offends && e.innerPositions.all (!·.offends)

/-- What is wrong with a list that offends. -/
def complaint : SExpr α → String
  | .list _ (head :: args) =>
    let name := headName (head :: args)
    name ++ ((Operator.ofName? name).elim "" Operator.demand)
  | _ => "empty atomic proposition"

theorem innermost_eq_offends {e : SExpr α} (h : ∀ u ∈ e.innerPositions, u.offends = false) :
    e.innermost = e.offends := by
  have hall : e.innerPositions.all (!·.offends) = true := by simpa using h
  rw [innermost, hall, Bool.and_true]

mutual

/-- Where a list offends there is an innermost one that does. -/
theorem filter_innermost_eq_nil_iff : (e : SExpr α) →
    (e.positions.filter innermost = [] ↔ ∀ u ∈ e.positions, u.offends = false)
  | .symbol n name => by simp [positions, innermost, offends]
  | .list n items => by
    have hinner : (list n items).innerPositions.filter innermost = [] ↔
        ∀ u ∈ (list n items).innerPositions, u.offends = false := by
      rw [innerPositions]
      split
      · exact filter_operands_eq_nil_iff items
      · simp
    rw [positions_eq, List.filter_append, List.append_eq_nil_iff, hinner]
    simp only [List.mem_append, List.mem_singleton, or_imp, forall_and, forall_eq]
    refine and_congr_right fun hnone => ?_
    rw [List.filter_singleton, innermost_eq_offends hnone]
    cases (list n items).offends <;> simp

theorem filter_operands_eq_nil_iff : (items : List (SExpr α)) →
    ((operandPositions items).filter innermost = [] ↔
      ∀ u ∈ operandPositions items, u.offends = false)
  | [] => by simp [operandPositions]
  | _ :: items => filter_items_eq_nil_iff items

theorem filter_items_eq_nil_iff : (items : List (SExpr α)) →
    ((itemPositions items).filter innermost = [] ↔ ∀ u ∈ itemPositions items, u.offends = false)
  | [] => by simp [itemPositions]
  | e :: es => by
    rw [itemPositions, List.filter_append, List.append_eq_nil_iff, filter_innermost_eq_nil_iff e,
      filter_items_eq_nil_iff es]
    simp only [List.mem_append, or_imp, forall_and]

end

/-- The mistake that an offending list is. -/
def mistake (e : SExpr Span) : SyntaxError := ⟨e.note, e.complaint⟩

/-- The mistakes to report among some parts of a tree. -/
def mistakes (es : List (SExpr Span)) : List SyntaxError := (es.filter innermost).map mistake

theorem mistakes_append (es fs : List (SExpr Span)) :
    mistakes (es ++ fs) = mistakes es ++ mistakes fs := by
  rw [mistakes, List.filter_append, List.map_append]
  rfl

theorem mistakes_singleton {e : SExpr Span} (h : ∀ u ∈ e.innerPositions, u.offends = false) :
    mistakes [e] = if e.offends then [e.mistake] else [] := by
  rw [mistakes, List.filter_singleton, innermost_eq_offends h]
  cases e.offends <;> rfl

/-- A list is not to blame if something beneath it is. -/
theorem mistakes_singleton_of_ne_nil {e : SExpr Span} (h : mistakes e.innerPositions ≠ []) :
    mistakes [e] = [] := by
  have hbeneath : e.innerPositions.all (!·.offends) = false := by
    rw [ne_eq, mistakes, List.map_eq_nil_iff, List.filter_eq_nil_iff] at h
    simp only [not_forall, not_not] at h
    obtain ⟨u, hu, hinnermost⟩ := h
    have hoffends := (Bool.and_eq_true_iff.1 hinnermost).1
    exact List.all_eq_false.2 ⟨u, hu, by simp [hoffends]⟩
  rw [mistakes, List.filter_singleton, innermost, hbeneath, Bool.and_false]
  rfl

theorem length_of_formulas? {es : List (SExpr α)} {fs : List Formula}
    (h : formulas? es = some fs) : fs.length = es.length := by
  induction es generalizing fs with
  | nil =>
    cases h
    rfl
  | cons e es ih =>
    obtain ⟨f, -, hrest⟩ := Option.bind_eq_some_iff.1 h
    obtain ⟨gs, hgs, rfl⟩ := Option.map_eq_some_iff.1 hrest
    simp [ih hgs]

end SExpr

namespace Interpreter

variable {α β : Type}

/-- An outcome reports just some mistakes, and is a value if there are none. -/
def Outcome.Reports : Outcome α → List SyntaxError → Prop
  | .ok _, es => es = []
  | .error fs, es => fs = es ∧ es ≠ []

theorem Outcome.Reports.join {first : Outcome α} {rest : Outcome (List α)}
    {es fs : List SyntaxError} (hfirst : first.Reports es) (hrest : rest.Reports fs) :
    (Interpreter.join first rest).Reports (es ++ fs) := by
  cases first with
  | ok a =>
    obtain rfl := hfirst
    cases rest with
    | ok as => exact hrest
    | error gs => exact hrest
  | error ds =>
    obtain ⟨rfl, hne⟩ := hfirst
    cases rest with
    | ok as =>
      obtain rfl := hrest
      exact ⟨(List.append_nil _).symm, by simpa using hne⟩
    | error gs =>
      obtain ⟨rfl, -⟩ := hrest
      exact ⟨rfl, by simp [hne]⟩

end Interpreter

namespace Formula

open SExpr Interpreter

theorem ofItems_reports (m : SpanMap Formula) {n : Span} {items : List Term}
    (hop : Operator.ofName? (headName items) = none) :
    (settle n (ofItems items) m).1.Reports (mistakes [.list n items]) := by
  have hinner : ∀ u ∈ (list n items).innerPositions, u.offends = false := by
    simp [innerPositions, hop]
  rw [mistakes_singleton hinner]
  cases items with
  | nil => exact ⟨rfl, by simp [offends]⟩
  | cons head args =>
    have hkept : (list n (head :: args)).offends = false := by rw [offends, hop]; rfl
    rw [hkept]
    rfl

theorem apply_settle_reports (m : SpanMap Formula) {n : Span} {items : List Term} {op : Operator}
    (hop : Operator.ofName? (headName items) = some op) {args : List Formula}
    (hargs : operands? items = some args)
    (hinner : ∀ u ∈ (list n items).innerPositions, u.offends = false) :
    (settle n (apply op (headName items) args) m).1.Reports (mistakes [.list n items]) := by
  rw [mistakes_singleton hinner]
  cases items with
  | nil => cases hop
  | cons head items =>
    have hlength : args.length = items.length := length_of_formulas? hargs
    have hoffends : (list n (head :: items)).offends = !op.takes args.length := by
      rw [offends, hop, hlength]
      rfl
    have happly := apply_reports op (headName (head :: items)) args
    rw [hoffends]
    cases htakes : op.takes args.length with
    | true =>
      rw [htakes, if_pos rfl] at happly
      obtain ⟨f, hf⟩ := happly
      rw [hf]
      rfl
    | false =>
      rw [htakes, if_neg (by decide)] at happly
      rw [happly]
      refine ⟨?_, by simp⟩
      simp [mistake, complaint, hop, note]

mutual

/-- Reading a term reports the innermost lists that offend. -/
theorem interpret_reports (m : SpanMap Formula) : (t : Term) →
    (interpreter.interpret t m).1.Reports (mistakes t.positions)
  | .symbol n name => rfl
  | .list n items => by
    rw [Interpreter.interpret, ruleFor_eq]
    cases hop : Operator.ofName? (headName items) with
    | none =>
      have hpositions : (list n items).positions = [list n items] := by rw [positions, hop]
      rw [hpositions]
      exact ofItems_reports m hop
    | some op =>
      have hinner : (list n items).innerPositions = operandPositions items := by
        rw [innerPositions, hop]
      have hrun := interpretTail_reports m items
      obtain ⟨o, htail, ho⟩ := interpretTail_eq m items
      rw [htail] at hrun
      rw [positions_eq, hinner, mistakes_append]
      simp only [bind, StateT.bind, htail]
      cases o with
      | error es =>
        obtain ⟨rfl, hne⟩ := hrun
        have hnone := mistakes_singleton_of_ne_nil (e := list n items) (by rwa [hinner])
        rw [hnone, List.append_nil]
        exact ⟨rfl, hne⟩
      | ok args =>
        have hnil : mistakes (operandPositions items) = [] := hrun
        have hkept := (filter_operands_eq_nil_iff items).1 (List.map_eq_nil_iff.1 hnil)
        rw [hnil, List.nil_append]
        exact apply_settle_reports _ hop ho.symm (by rwa [hinner])

theorem interpretTail_reports (m : SpanMap Formula) : (items : List Term) →
    (interpreter.interpretTail items m).1.Reports (mistakes (operandPositions items))
  | [] => rfl
  | _ :: items => interpretItems_reports m items

theorem interpretItems_reports (m : SpanMap Formula) : (items : List Term) →
    (interpreter.interpretItems items m).1.Reports (mistakes (itemPositions items))
  | [] => rfl
  | t :: ts => by
    rw [itemPositions, mistakes_append]
    have hcons : interpreter.interpretItems (t :: ts) m =
        (Interpreter.join (interpreter.interpret t m).1
          (interpreter.interpretItems ts (interpreter.interpret t m).2).1,
          (interpreter.interpretItems ts (interpreter.interpret t m).2).2) := by
      rw [Interpreter.interpretItems]
      rfl
    rw [hcons]
    exact (interpret_reports m t).join (interpretItems_reports _ ts)

end

end Formula

namespace Table

open Formula SExpr

theorem interpret_reports (t : Table) (u : Term) :
    (interpret u t).1.1.Reports (mistakes u.positions) := by
  have hreports := Formula.interpret_reports {} u
  obtain ⟨o, hrun, -⟩ := interpret_eq {} u
  rw [hrun] at hreports
  have hrun' : (Formula.interpreter.interpret u).run {} =
      (o, SpanMap.register {} (readings u.positions)) := hrun
  rw [interpret, hrun']
  cases o with
  | ok f => exact hreports
  | error es => exact hreports

theorem pairwise_mistakes {s : Source} {root : Term} (hroot : s.term = .ok root) :
    (mistakes root.positions).Pairwise fun d e => d.span.stop ≤ e.span.start := by
  obtain ⟨htokens, hplaced⟩ := Source.tokens_of_term hroot
  have hordered : Ordered root.tokens := htokens ▸ Token.pairwise_ofText s.text
  rw [mistakes, List.pairwise_map, List.pairwise_filter]
  refine (pairwise_positions root hplaced hordered).imp fun {u v} huv hu hv => ?_
  -- what is beneath an innermost list does not offend
  refine huv.resolve_right fun hmem => ?_
  have hkept := List.all_eq_true.1 (Bool.and_eq_true_iff.1 hv).2 u hmem
  rw [(Bool.and_eq_true_iff.1 hu).1] at hkept
  cases hkept

/-- A text that holds one term is read as a formula if no list in formula position is empty or has a
number of operands that the operator at its head does not take.  Otherwise each of these lists is
reported that has none beneath it, once, where it stands, and from left to right. -/
theorem read_reports_innermost (t : Table) {s : Source} {root : Term} (hroot : s.term = .ok root) :
    ((∃ f, (read s t).1 = .ok f) ↔ ∀ u ∈ root.positions, u.offends = false) ∧
      ∀ es, (read s t).1 = .error es →
        es ≠ [] ∧ es = (root.positions.filter innermost).map mistake ∧
          es.Pairwise fun d e => d.span.stop ≤ e.span.start := by
  have hread : (read s t).1 = (interpret root t).1.1 := by
    simp only [read, readSpans, hroot]
    rfl
  have hreports := interpret_reports t root
  rw [hread]
  constructor
  · rw [← filter_innermost_eq_nil_iff, ← List.map_eq_nil_iff (f := mistake)]
    constructor
    · rintro ⟨f, hf⟩
      rw [hf] at hreports
      exact hreports
    · intro hnil
      cases ho : (interpret root t).1.1 with
      | ok f => exact ⟨f, rfl⟩
      | error es =>
        rw [ho] at hreports
        exact absurd hnil hreports.2
  · intro es hes
    rw [hes] at hreports
    obtain ⟨rfl, hne⟩ := hreports
    exact ⟨hne, rfl, pairwise_mistakes hroot⟩

/-- The conjunction with one operand is not reported, since the empty list beneath it is. -/
theorem read_reports_innermost_nested :
    let s := Source.ofString "nested" "(-> (X p q) (& ()))"
    (∃ root, s.term = .ok root) ∧ (read s ∅).1 = .error
      [⟨⟨4, 11⟩, "X requires exactly one argument"⟩, ⟨⟨15, 17⟩, "empty atomic proposition"⟩] := by
  intro s
  have hroot : s.term = .ok (.list ⟨0, 19⟩ [.symbol ⟨1, 3⟩ "->",
      .list ⟨4, 11⟩ [.symbol ⟨5, 6⟩ "X", .symbol ⟨7, 8⟩ "p", .symbol ⟨9, 10⟩ "q"],
      .list ⟨12, 18⟩ [.symbol ⟨13, 14⟩ "&", .list ⟨15, 17⟩ []]]) := by cbv
  refine ⟨⟨_, hroot⟩, ?_⟩
  obtain ⟨hread, hreports⟩ := read_reports_innermost ∅ hroot
  cases ho : (read s ∅).1 with
  | ok f =>
    have hempty := hread.1 ⟨f, ho⟩ (.list ⟨15, 17⟩ []) (by decide)
    cases hempty
  | error es =>
    rw [(hreports es ho).2.1]
    rfl

end Table

end Lasso
