import Lasso.Proofs.Formula.Interpretation

/-! # Calls on a table

A table holds the formulas that calls on it asked for, with everything beneath them and nothing
else, and whoever asks for a formula is given the one in the table that is written like it.
-/

namespace Lasso

set_option autoImplicit false

namespace Formula

/-- The formula of an operator and the operands that are present, if they fit. -/
def ofOperands? : Operator → Option Formula → Option Formula → Option Formula
  | .unary op, some f, none => some (.unary op f)
  | .binary op, some f, some g => some (.binary op f g)
  | _, _, _ => none

end Formula

namespace Table

open Formula SExpr

/-- What is asked of a table, where formulas are referred to in some way. -/
inductive Call (α : Type) where
  | atom (expr : Expr)
  | named (name : String)
  | make (op : Operator) (left right : Option α)
  | read (source : Source)
  | interpret (term : Term)
  | normal (f : α)
  | negation (f : α)

namespace Call

def run : Call Formula → StateM Table (Option Formula)
  | .atom e => some <$> Table.atom e
  | .named name => some <$> Table.named name
  | .make op left right => (·.toOption) <$> Table.make op left right
  | .read s => (·.toOption) <$> Table.read s
  | .interpret u => (·.1.toOption) <$> Table.interpret u
  | .normal f => some <$> Table.normal f
  | .negation f => some <$> Table.negation f

def operands {α : Type} : Call α → List α
  | .make _ left right => left.toList ++ right.toList
  | .normal f | .negation f => [f]
  | _ => []

/-- The formula that a call asks for, whatever is in the table. -/
def formula? : Call Formula → Option Formula
  | .atom e => some (.atom e)
  | .named name => some (.atom (.symbol () name))
  | .make op left right => ofOperands? op left right
  | .read s => s.term.toOption.bind SExpr.formula?
  | .interpret u => u.formula?
  | .normal f => some f.normal
  | .negation f => some f.negation

/-- The formulas that a call makes, with everything beneath them.  A text that is not a formula has
parts that are. -/
def made : Call Formula → List Formula
  | .read s => s.term.toOption.elim [] partFormulas
  | .interpret u => partFormulas u
  | c => c.formula?.toList

end Call

variable {t : Table}

theorem make_run (op : Operator) (left right : Option Formula) (t : Table) :
    (Call.make op left right).run t = match ofOperands? op left right with
      | some f => (some (add f t).1, (add f t).2)
      | none => (none, t) := by
  cases op <;> cases left <;> cases right <;> rfl

theorem read_run (s : Source) (t : Table) :
    (Call.read s).run t = ((readSpans s t).1.1.toOption, (readSpans s t).2) := rfl

theorem read_run_eq_interpret (s : Source) (t : Table) :
    (Call.read s).run t = match s.term with
      | .error _ => (none, t)
      | .ok u => (Call.interpret u).run t := by
  rw [read_run, readSpans]
  cases s.term <;> rfl

theorem add_makes_of_operands (h : t.Sound) {op : Operator} {left right : Option Formula}
    {f : Formula} (hf : ofOperands? op left right = some f)
    (hoperands : ∀ g ∈ left.toList ++ right.toList, t.Has g) : Makes t f (add f t) := by
  unfold ofOperands? at hf
  split at hf
  · rename_i op g
    cases hf
    exact add_unary_makes h op (hoperands g (by simp))
  · rename_i op g g'
    cases hf
    exact add_binary_makes h op (hoperands g (by simp)) (hoperands g' (by simp))
  · cases hf

theorem Sound.meets (h : t.Sound) :
    Enters t [] t ∧ t.Answers none none :=
  ⟨⟨h.adds_self _, by simp⟩, trivial⟩

theorem Makes.meets {f : Formula} {r : Formula × Table} (h : Makes t f r) :
    Enters t [f] r.2 ∧ r.2.Answers (some f) (some r.1) :=
  ⟨h.enters, h.stores⟩

theorem Call.run_spec (h : t.Sound) (c : Call Formula) (hoperands : ∀ f ∈ c.operands, t.Has f) :
    Enters t c.made (c.run t).2 ∧ (c.run t).2.Answers c.formula? (c.run t).1 := by
  cases c with
  | atom e => exact (atom_makes h e).meets
  | named name => exact (atom_makes h (.symbol () name)).meets
  | make op left right =>
    rw [make_run]
    simp only [Call.made, Call.formula?]
    cases hf : ofOperands? op left right with
    | none => exact h.meets
    | some f => exact (add_makes_of_operands h hf hoperands).meets
  | read s =>
    rw [read_run_eq_interpret]
    simp only [Call.made, Call.formula?]
    cases s.term with
    | error e => exact h.meets
    | ok u =>
      have hu := interpret_interprets h u
      exact ⟨hu.enters, hu.outcome⟩
  | interpret u =>
    have hu := interpret_interprets h u
    exact ⟨hu.enters, hu.outcome⟩
  | normal f => exact (normal_makes h (hoperands f (by simp [operands]))).meets
  | negation f => exact (negation_makes h (hoperands f (by simp [operands]))).meets

structure Event where
  call : Call Formula
  result : Option Formula

/-- The formulas that calls returned, and everything beneath them. -/
def nodes (es : List Event) : List Formula := es.flatMap fun e => e.result.toList.flatMap preorder

/-- Calls one after another on a table that was empty.  Only formulas of the table are passed. -/
inductive Run : List Event → Table → Prop
  | start : Run [] ∅
  | call {es : List Event} {t : Table} (h : Run es t) (c : Call Formula)
      (hoperands : ∀ f ∈ c.operands, f ∈ nodes es) :
      Run (es ++ [⟨c, (c.run t).1⟩]) (c.run t).2

theorem has_of_mem_nodes (wf : t.WellFormed) {es : List Event}
    (h : ∀ e ∈ es, t.Answers e.call.formula? e.result) : ∀ f ∈ nodes es, t.Has f := by
  intro f hf
  simp only [nodes, List.mem_flatMap, Option.mem_toList] at hf
  obtain ⟨e, he, g, hg, hf⟩ := hf
  have hrel := h e he
  rw [hg] at hrel
  obtain ⟨k, -, hk⟩ := hrel.exists_stores
  exact wf.has_of_mem hk.has hf

/-- The formulas that were made, with everything beneath them, are those in the table, and every
call returned what it asked for. -/
theorem Run.records {es : List Event} (h : Run es t) :
    t.Records (allKeys (es.flatMap (·.call.made))) ∧
      ∀ e ∈ es, t.Answers e.call.formula? e.result := by
  induction h with
  | start => exact ⟨records_empty, by simp⟩
  | @call es t h c hoperands ih =>
    obtain ⟨hrecords, hresults⟩ := ih
    have hnodes : ∀ f ∈ nodes es, t.Has f := has_of_mem_nodes hrecords.wf hresults
    obtain ⟨henters, hresult⟩ :=
      c.run_spec ⟨_, hrecords⟩ fun f hf => hnodes f (hoperands f hf)
    constructor
    · rw [List.flatMap_append, allKeys_append]
      simpa using henters.records hrecords
    · intro e he
      obtain he | he := List.mem_append.1 he
      · exact (hresults e he).keeps henters.adds.keeps
      · obtain rfl := List.mem_singleton.1 he
        exact hresult

end Table

end Lasso
