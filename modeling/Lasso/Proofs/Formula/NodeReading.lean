import Lasso.Proofs.Formula.Nodes

/-! # Reading into nodes

A term becomes nodes from its innermost parts outwards.  A node is given the span of the first part
that it was found or made for.
-/

namespace Lasso

set_option autoImplicit false

open Formula SExpr

namespace NodeTable

def chain (op : BinaryOp) (k l : Nat) (rest : List Nat) : StateM NodeTable Nat := do
  rest.foldlM (fun k l => add (.binary op k l)) (← add (.binary op k l))

/-- Applies an operator, written with a given name, to operands. -/
def apply (op : Operator) (name : String) (args : List Nat) :
    StateM NodeTable (Except String Nat) :=
  match op, args with
  | .binary .and, k :: l :: rest => .ok <$> chain .and k l rest
  | .binary .or, k :: l :: rest => .ok <$> chain .or k l rest
  | .binary .and, _ | .binary .or, _ => return .error (name ++ " requires at least two arguments")
  | .unary op, [k] => .ok <$> add (.unary op k)
  | .unary _, _ => return .error (name ++ " requires exactly one argument")
  | .binary op, [k, l] => .ok <$> add (.binary op k l)
  | _, _ => return .error (name ++ " requires exactly two arguments")

/-- The node of an atomic proposition given by a whole list. -/
def ofItems (items : List Term) : StateM NodeTable (Except String Nat) :=
  if items.isEmpty then return .error "empty atomic proposition"
  else .ok <$> atom (.list () (mapItems (fun _ => ()) items))

abbrev ReadM := StateT (SpanMap Nat) (StateM NodeTable)

def settle (span : Span) (result : StateM NodeTable (Except String Nat)) :
    ReadM (Interpreter.Outcome Nat) :=
  fun spans s => (Interpreter.settle span (result s).1 spans, (result s).2)

mutual

def interpret : Term → ReadM (Interpreter.Outcome Nat)
  | .symbol span name => settle span (.ok <$> named name)
  | .list span items =>
    match Operator.ofName? (headName items) with
    | none => settle span (ofItems items)
    | some op => do
      match ← interpretTail items with
      | .error es => return .error es
      | .ok args => settle span (apply op (headName items) args)

def interpretTail : List Term → ReadM (Interpreter.Outcome (List Nat))
  | [] => return .ok []
  | _ :: items => interpretItems items

def interpretItems : List Term → ReadM (Interpreter.Outcome (List Nat))
  | [] => return .ok []
  | item :: items => do
    let first ← interpret item
    let rest ← interpretItems items
    return Interpreter.join first rest

end

/-- The node of a source that holds exactly one formula, and where its parts stand. -/
def readSpans (s : Source) : StateM NodeTable (Interpreter.Outcome Nat × SpanMap Nat) :=
  match s.term with
  | .error e => return (.error [e], {})
  | .ok u => (interpret u).run {}

def read (s : Source) : StateM NodeTable (Interpreter.Outcome Nat) := do
  return (← readSpans s).1

variable {s s' s'' : NodeTable} {n m : Nat} {f g : Formula} {K L : Finset Formula}

/-- What is returned is what was asked for, and that is all that was made. -/
structure Gives (s : NodeTable) (f? : Option Formula) (r : Except String Nat × NodeTable) :
    Prop where
  enters : Enters s f?.toList r.2
  answers : r.2.Answers f? r.1.toOption

theorem Sound.gives_error (h : s.Sound) (message : String) :
    Gives s none (.error message, s) := ⟨h.enters_self, trivial⟩

theorem Makes.gives {r : Nat × NodeTable} (h : Makes s f r) : Gives s (some f) (.ok r.1, r.2) :=
  ⟨h.enters, h.writes⟩

theorem keys_subset_foldl (op : BinaryOp) (fs : List Formula) (f : Formula) :
    f.keys ⊆ (fs.foldl (.binary op) f).keys := by
  induction fs generalizing f with
  | nil => exact Finset.Subset.refl _
  | cons g fs ih => exact (keys_subset_left op f g).trans (ih _)

theorem foldlM_makes (h : s.Sound) (op : BinaryOp) {ks : List Nat} {fs : List Formula}
    (hks : List.Forall₂ s.Writes ks fs) (hn : s.Writes n f) :
    Makes s (fs.foldl (.binary op) f) (ks.foldlM (fun k l => add (.binary op k l)) n s) := by
  induction ks generalizing s n f fs with
  | nil =>
    obtain rfl := List.forall₂_nil_left_iff.1 hks
    exact ⟨h.adds_self _, hn⟩
  | cons k ks ih =>
    obtain ⟨g, fs, hk, hrest, rfl⟩ := List.forall₂_cons_left_iff.1 hks
    have hfirst := add_binary_makes h op hn hk
    have hrest' := hrest.imp fun _ _ hk => hk.keeps hfirst.adds.keeps
    obtain ⟨hadds, hwrites⟩ := ih hfirst.adds.sound hrest' hfirst.writes
    exact ⟨(hfirst.adds.mono (keys_subset_foldl op fs _)).trans hadds, hwrites⟩

theorem chain_makes (h : s.Sound) (op : BinaryOp) {k l : Nat} {rest : List Nat}
    {fs : List Formula} (hk : s.Writes k f) (hl : s.Writes l g)
    (hrest : List.Forall₂ s.Writes rest fs) :
    Makes s (Formula.chain op f g fs) (chain op k l rest s) := by
  have hfirst := add_binary_makes h op hk hl
  have hrest' := hrest.imp fun _ _ hk => hk.keeps hfirst.adds.keeps
  obtain ⟨hadds, hwrites⟩ := foldlM_makes hfirst.adds.sound op hrest' hfirst.writes
  exact ⟨(hfirst.adds.mono (keys_subset_foldl op fs _)).trans hadds, hwrites⟩

theorem apply_gives (h : s.Sound) (op : Operator) (name : String) {args : List Nat}
    {fs : List Formula} (hargs : List.Forall₂ s.Writes args fs) :
    Gives s (Formula.apply op name fs).toOption (apply op name args s) := by
  cases op with
  | atom => exact h.gives_error _
  | unary op =>
    match args, fs, hargs with
    | [], [], _ => exact h.gives_error _
    | [k], [f], .cons hk .nil => exact (add_unary_makes h op hk).gives
    | _ :: _ :: _, _ :: _ :: _, _ => exact h.gives_error _
  | binary op =>
    match args, fs, hargs with
    | [], [], _ => cases op <;> exact h.gives_error _
    | [k], [f], _ => cases op <;> exact h.gives_error _
    | [k, l], [f, g], .cons hk (.cons hl .nil) =>
      cases op <;> exact (add_binary_makes h _ hk hl).gives
    | k :: l :: i :: rest, f :: g :: p :: fs, .cons hk (.cons hl hrest) =>
      cases op with
      | and => exact (chain_makes h .and hk hl hrest).gives
      | or => exact (chain_makes h .or hk hl hrest).gives
      | _ => exact h.gives_error _

theorem ofItems_gives (h : s.Sound) (items : List Term) :
    Gives s (Formula.ofItems items).toOption (ofItems items s) := by
  cases items with
  | nil => exact h.gives_error _
  | cons item items => exact (atom_makes h _).gives

/-- A node stands where a formula does that is written like it. -/
def Stands (s : NodeTable) (p : Nat × Span) (q : Formula × Span) : Prop :=
  s.Writes p.1 q.1 ∧ p.2 = q.2

/-- The formulas of some parts have nodes, which have their spans in the order of the parts. -/
structure Reads (s : NodeTable) (parts : List Term) (spans : SpanMap Nat)
    (r : SpanMap Nat × NodeTable) : Prop where
  enters : Enters s ((readings parts).map Prod.fst) r.2
  registers : ∃ ns, r.1 = spans.register ns ∧ List.Forall₂ r.2.Stands ns (readings parts)

theorem Sound.reads_nil (h : s.Sound) (spans : SpanMap Nat) : Reads s [] spans (spans, s) :=
  ⟨h.enters_self, [], rfl, .nil⟩

theorem Sound.reads_none (h : s.Sound) {u : Term} (hu : u.formula? = none)
    (spans : SpanMap Nat) : Reads s [u] spans (spans, s) := by
  have hreadings : readings [u] = [] := by
    rw [readings_singleton, hu]
    rfl
  constructor
  · rw [hreadings]
    exact h.enters_self
  · rw [hreadings]
    exact ⟨[], rfl, .nil⟩

theorem Reads.append {parts parts' : List Term} {spans : SpanMap Nat}
    {r r' : SpanMap Nat × NodeTable} (h : Reads s parts spans r) (h' : Reads r.2 parts' r.1 r') :
    Reads s (parts ++ parts') spans r' := by
  obtain ⟨ns, hspans, hns⟩ := h.registers
  obtain ⟨ns', hspans', hns'⟩ := h'.registers
  have hkeeps := h'.enters.adds.keeps
  refine ⟨?_, ns ++ ns', ?_, ?_⟩
  · rw [readings_append, List.map_append]
    exact h.enters.append h'.enters
  · rw [hspans', hspans, SpanMap.register_append]
  · rw [readings_append]
    exact List.rel_append (hns.imp fun _ _ hp => ⟨hp.1.keeps hkeeps, hp.2⟩) hns'

theorem settle_reads {u : Term} {result : StateM NodeTable (Except String Nat)}
    (h : Gives s u.formula? (result s)) (spans : SpanMap Nat) :
    Reads s [u] spans ((settle u.note result spans s).1.2, (settle u.note result spans s).2) ∧
      (settle u.note result spans s).2.Answers u.formula?
        (settle u.note result spans s).1.1.toOption := by
  obtain ⟨henters, hanswers⟩ := h
  rw [settle]
  generalize result s = r at henters hanswers
  obtain ⟨value, s'⟩ := r
  have hreadings : (readings [u]).map Prod.fst = u.formula?.toList := by
    rw [readings_singleton, List.map_map]
    exact List.map_id _
  rw [← hreadings] at henters
  cases value with
  | error message =>
    refine ⟨⟨henters, [], rfl, ?_⟩, hanswers⟩
    cases hu : u.formula? with
    | none => simp [readings_singleton, hu]
    | some f =>
      rw [hu] at hanswers
      exact hanswers.elim
  | ok n =>
    refine ⟨⟨henters, [(n, u.note)], rfl, ?_⟩, hanswers⟩
    cases hu : u.formula? with
    | none =>
      rw [hu] at hanswers
      exact hanswers.elim
    | some f =>
      rw [hu] at hanswers
      simpa [readings_singleton, hu] using ⟨hanswers, rfl⟩

def AnswersAll (s : NodeTable) : Option (List Formula) → Option (List Nat) → Prop
  | some fs, some ns => List.Forall₂ s.Writes ns fs
  | none, none => True
  | _, _ => False

theorem Answers.keeps {f? : Option Formula} {n? : Option Nat} (h : s.Answers f? n?)
    (hs : s.Keeps s') : s'.Answers f? n? := by
  cases f? with
  | none => cases n? with
    | none => trivial
    | some n => exact h.elim
  | some f => cases n? with
    | none => exact h.elim
    | some n => exact Writes.keeps h hs

theorem Answers.cons {f? : Option Formula} {n? : Option Nat} {fs? : Option (List Formula)}
    {ns? : Option (List Nat)} (h : s.Answers f? n?) (h' : s.AnswersAll fs? ns?) :
    s.AnswersAll (f?.bind fun f => fs?.map (f :: ·)) (n?.bind fun n => ns?.map (n :: ·)) := by
  cases f? with
  | none => cases n? with
    | none => trivial
    | some n => exact h.elim
  | some f => cases n? with
    | none => exact h.elim
    | some n => cases fs? with
      | none => cases ns? with
        | none => trivial
        | some ns => exact h'.elim
      | some fs => cases ns? with
        | none => exact h'.elim
        | some ns => exact .cons h h'

mutual

/-- The parts of a term in formula position become nodes, and the term the node of its formula. -/
theorem interpret_reads {s : NodeTable} (h : s.Sound) (spans : SpanMap Nat) : (u : Term) →
    Reads s u.positions spans ((interpret u spans s).1.2, (interpret u spans s).2) ∧
      (interpret u spans s).2.Answers u.formula? (interpret u spans s).1.1.toOption
  | .symbol span name => by
    rw [interpret, positions]
    exact settle_reads (u := .symbol span name) (atom_makes h _).gives spans
  | .list span items => by
    rw [interpret, positions]
    cases hop : Operator.ofName? (headName items) with
    | none =>
      have hformula : (list span items).formula? = (Formula.ofItems items).toOption := by
        rw [SExpr.formula?, hop, Formula.ofItems]
        cases items <;> rfl
      refine settle_reads (u := .list span items) ?_ spans
      rw [hformula]
      exact ofItems_gives h items
    | some op =>
      obtain ⟨hargs, hanswers⟩ := interpretTail_reads h spans items
      have hformula : (list span items).formula? =
          (operands? items).bind fun fs => (Formula.apply op (headName items) fs).toOption := by
        rw [SExpr.formula?, hop]
      simp only [bind, StateT.bind]
      generalize interpretTail items spans s = r at hargs hanswers
      obtain ⟨⟨outcome, spans'⟩, s'⟩ := r
      have hsound : s'.Sound := hargs.enters.adds.sound
      cases hfs : operands? items with
      | none =>
        rw [hfs] at hanswers hformula
        cases outcome with
        | error es =>
          refine ⟨hargs.append (hsound.reads_none hformula spans'), ?_⟩
          rw [hformula]
          trivial
        | ok args => exact hanswers.elim
      | some fs =>
        rw [hfs] at hanswers hformula
        cases outcome with
        | error es => exact hanswers.elim
        | ok args =>
          have hgives := apply_gives hsound op (headName items) hanswers
          rw [show (Formula.apply op (headName items) fs).toOption = (list span items).formula? from
            hformula.symm] at hgives
          obtain ⟨hreads, hresult⟩ := settle_reads hgives spans'
          exact ⟨hargs.append hreads, hresult⟩

theorem interpretTail_reads {s : NodeTable} (h : s.Sound) (spans : SpanMap Nat) :
    (items : List Term) → Reads s (operandPositions items) spans
        ((interpretTail items spans s).1.2, (interpretTail items spans s).2) ∧
      (interpretTail items spans s).2.AnswersAll (operands? items)
        (interpretTail items spans s).1.1.toOption
  | [] => ⟨h.reads_nil spans, .nil⟩
  | _ :: items => interpretItems_reads h spans items

theorem interpretItems_reads {s : NodeTable} (h : s.Sound) (spans : SpanMap Nat) :
    (items : List Term) → Reads s (itemPositions items) spans
        ((interpretItems items spans s).1.2, (interpretItems items spans s).2) ∧
      (interpretItems items spans s).2.AnswersAll (formulas? items)
        (interpretItems items spans s).1.1.toOption
  | [] => ⟨h.reads_nil spans, .nil⟩
  | u :: us => by
    obtain ⟨hu, hfirst⟩ := interpret_reads h spans u
    obtain ⟨hus, hrest⟩ := interpretItems_reads hu.enters.adds.sound (interpret u spans s).1.2 us
    rw [interpretItems, itemPositions]
    refine ⟨hu.append hus, ?_⟩
    have hcons := (hfirst.keeps hus.enters.adds.keeps).cons hrest
    rw [← toOption_join] at hcons
    exact hcons

end

theorem lookup_iff (hs : s.Sound) {ns : List (Nat × Span)} {entries : List (Formula × Span)}
    (h : List.Forall₂ s.Stands ns entries) {span : Span} : ns.lookup n = some span ↔
      ∃ before f after, entries = before ++ (f, span) :: after ∧ s.Writes n f ∧
        ∀ p ∈ before, ¬ s.Writes n p.1 := by
  induction h with
  | nil => simp
  | @cons p q ns entries hp _ ih =>
    obtain ⟨m, _⟩ := p
    obtain ⟨f, place⟩ := q
    obtain ⟨hm, rfl⟩ := hp
    obtain rfl | hn := eq_or_ne n m
    · rw [List.lookup_cons_self]
      constructor
      · intro hspan
        cases hspan
        exact ⟨[], f, entries, rfl, hm, by simp⟩
      · rintro ⟨before, g, after, heq, -, hbefore⟩
        cases before with
        | nil =>
          cases heq
          rfl
        | cons first before =>
          cases heq
          exact absurd hm (hbefore _ (by simp))
    · have hnot : ¬ s.Writes n f := fun hf => hn (hf.unique hs hm)
      rw [List.lookup_cons, beq_eq_false_iff_ne.2 hn, ih]
      constructor
      · rintro ⟨before, g, after, rfl, hg, hbefore⟩
        exact ⟨_ :: before, g, after, rfl, hg, List.forall_mem_cons.2 ⟨hnot, hbefore⟩⟩
      · rintro ⟨before, g, after, heq, hg, hbefore⟩
        cases before with
        | nil =>
          cases heq
          exact absurd hg hnot
        | cons first before =>
          cases heq
          exact ⟨before, g, after, rfl, hg, fun p hp => hbefore p (List.mem_cons_of_mem _ hp)⟩

/-- A node has the span of the first part in formula position that is written like it. -/
theorem get?_spans_iff (h : s.Sound) (u : Term) {span : Span} :
    (interpret u ∅ s).1.2.get? n = some span ↔
      ∃ before f after, readings u.positions = before ++ (f, span) :: after ∧
        (interpret u ∅ s).2.Writes n f ∧
        ∀ p ∈ before, ¬ (interpret u ∅ s).2.Writes n p.1 := by
  obtain ⟨⟨henters, ns, hspans, hns⟩, -⟩ := interpret_reads h ∅ u
  have hempty : (∅ : SpanMap Nat).get? n = none := Std.HashMap.getElem?_empty
  simp only at hspans
  rw [hspans, SpanMap.get?_register, hempty, Option.none_or]
  exact lookup_iff henters.adds.sound hns

end NodeTable

end Lasso
