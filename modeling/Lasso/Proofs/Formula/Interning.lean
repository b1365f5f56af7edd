import Lasso.Proofs.Formula.Calls
import Lasso.Proofs.Formula.NodeNormalForm
import Lasso.Proofs.Formula.NodeReading

/-! # Formulas are kept once

Whatever is made through a table, and in whichever way, there is one node for each way of writing a
formula, and it is that node which is given to everyone who asks for it.  Calls on tables of
formulas come to the same as calls on tables of nodes.
-/

namespace Lasso

set_option autoImplicit false

namespace Formula

theorem byText_byText (f : Formula) : f.byText.byText = f.byText := by
  induction f with
  | atom e => rfl
  | unary op f ih => rw [byText, byText, ih]
  | binary op f g ihf ihg => rw [byText, byText, ihf, ihg]

/-- The operators from the top of a formula to each of its atomic propositions. -/
def branches : Formula → List (List Operator)
  | .atom _ => [[.atom]]
  | .unary op f => f.branches.map (.unary op :: ·)
  | .binary op f g => (f.branches ++ g.branches).map (.binary op :: ·)

theorem countP_cons_eq (op : Operator) (b : List Operator) :
    (op :: b).countP Operator.isTemporal =
      b.countP Operator.isTemporal + op.isTemporal.toNat := by
  cases h : op.isTemporal <;> simp [h]

theorem countP_le_depth (f : Formula) :
    ∀ b ∈ f.branches, b.countP Operator.isTemporal ≤ f.depth := by
  induction f with
  | atom e => simp [branches, depth, Operator.isTemporal]
  | unary op f ih =>
    simp only [branches, List.mem_map, forall_exists_index, and_imp, forall_apply_eq_imp_iff₂,
      countP_cons_eq]
    intro b hb
    exact Nat.add_le_add_right (ih b hb) _
  | binary op f g ihf ihg =>
    simp only [branches, List.mem_map, List.mem_append, forall_exists_index, and_imp,
      forall_apply_eq_imp_iff₂, countP_cons_eq]
    rintro b (hb | hb)
    · exact Nat.add_le_add_right ((ihf b hb).trans (Nat.le_max_left _ _)) _
    · exact Nat.add_le_add_right ((ihg b hb).trans (Nat.le_max_right _ _)) _

theorem exists_countP_eq_depth (f : Formula) :
    ∃ b ∈ f.branches, b.countP Operator.isTemporal = f.depth := by
  induction f with
  | atom e => exact ⟨[.atom], by simp [branches], rfl⟩
  | unary op f ih =>
    obtain ⟨b, hb, hdepth⟩ := ih
    exact ⟨.unary op :: b, by simp [branches, hb], by rw [countP_cons_eq, hdepth]; rfl⟩
  | binary op f g ihf ihg =>
    obtain ⟨b, hb, hdepth⟩ : ∃ b ∈ f.branches ++ g.branches,
        b.countP Operator.isTemporal = max f.depth g.depth := by
      obtain ⟨b, hb, hb'⟩ := ihf
      obtain ⟨c, hc, hc'⟩ := ihg
      obtain h | h := Nat.le_total f.depth g.depth
      · exact ⟨c, by simp [hc], by rw [hc', Nat.max_eq_right h]⟩
      · exact ⟨b, by simp [hb], by rw [hb', Nat.max_eq_left h]⟩
    refine ⟨.binary op :: b, List.mem_map_of_mem hb, ?_⟩
    rw [countP_cons_eq, hdepth]
    rfl

end Formula

open Formula

namespace Table.Call

variable {α β : Type}

/-- The same call where formulas are referred to in another way. -/
def map (r : α → β) : Call α → Call β
  | .atom e => .atom e
  | .named name => .named name
  | .make op left right => .make op (left.map r) (right.map r)
  | .read s => .read s
  | .interpret u => .interpret u
  | .normal f => .normal (r f)
  | .negation f => .negation (r f)

theorem map_congr {r r' : α → β} {c : Call α} (h : ∀ f ∈ c.operands, r f = r' f) :
    c.map r = c.map r' := by
  cases c with
  | make op left right =>
    have hleft : left.map r = left.map r' := Option.map_congr fun f hf =>
      h f (by simp [operands, hf])
    have hright : right.map r = right.map r' := Option.map_congr fun f hf =>
      h f (by simp [operands, hf])
    rw [map, map, hleft, hright]
  | normal f => rw [map, map, h f (by simp [operands])]
  | negation f => rw [map, map, h f (by simp [operands])]
  | _ => rfl

theorem map_map {γ : Type} (r : α → β) (q : β → γ) (c : Call α) :
    (c.map r).map q = c.map fun f => q (r f) := by
  cases c with
  | make op left right => simp [map, Function.comp_def]
  | _ => rfl

theorem operands_map (r : α → β) (c : Call α) : (c.map r).operands = c.operands.map r := by
  cases c with
  | make op left right => cases left <;> cases right <;> rfl
  | _ => rfl

theorem ofOperands?_byText (op : Operator) (left right : Option Formula) :
    (ofOperands? op (left.map byText) (right.map byText)).map byText =
      (ofOperands? op left right).map byText := by
  cases op <;> cases left <;> cases right <;> simp [ofOperands?, byText, byText_byText]

theorem formula?_byText (c : Call Formula) :
    (c.map byText).formula?.map byText = c.formula?.map byText := by
  cases c with
  | make op left right => exact ofOperands?_byText op left right
  | normal f =>
    simp only [map, formula?, Option.map_some, Formula.normal, byText_normalise, byText_byText]
  | negation f =>
    simp only [map, formula?, Option.map_some, Formula.negation, byText_normalise, byText_byText]
  | _ => rfl

/-- What a call asks for depends on how formulas are written. -/
theorem formula?_congr {c c' : Call Formula} (h : c.map byText = c'.map byText) :
    c.formula?.map byText = c'.formula?.map byText := by
  rw [← c.formula?_byText, h, c'.formula?_byText]

theorem allKeys_toList_congr {f? g? : Option Formula} (h : f?.map byText = g?.map byText) :
    allKeys f?.toList = allKeys g?.toList := by
  cases f? with
  | none => cases g? with
    | none => rfl
    | some g => cases h
  | some f => cases g? with
    | none => cases h
    | some g =>
      ext k
      simp [mem_allKeys_iff, keys_congr (Option.some.inj h)]

theorem allKeys_made_byText (c : Call Formula) : allKeys (c.map byText).made = allKeys c.made := by
  have hformula := allKeys_toList_congr c.formula?_byText
  cases c with
  | make op left right => exact hformula
  | normal f => exact hformula
  | negation f => exact hformula
  | _ => rfl

theorem allKeys_made_congr {c c' : Call Formula} (h : c.map byText = c'.map byText) :
    allKeys c.made = allKeys c'.made := by
  rw [← c.allKeys_made_byText, h, c'.allKeys_made_byText]

end Table.Call

namespace NodeTable

open Table (Call)

variable {s s' : NodeTable} {n m : Nat} {f g : Formula}

/-- The formula of a node that is there. -/
def formula (s : NodeTable) (n : Nat) : Formula := (s.formula? n).getD default

def run : Call Nat → StateM NodeTable (Option Nat)
  | .atom e => some <$> atom e
  | .named name => some <$> named name
  | .make op left right => (·.toOption) <$> make op left right
  | .read s => (·.toOption) <$> read s
  | .interpret u => (·.toOption) <$> (interpret u).run' {}
  | .normal n => some <$> normal n
  | .negation n => some <$> negation n

theorem Sound.formula?_eq_some (h : s.Sound) (hn : n < s.nodes.size) :
    s.formula? n = some (s.formula n) := by
  obtain ⟨f, hf⟩ := h.exists_formula hn
  rw [formula, hf]
  rfl

theorem Sound.writes_formula (h : s.Sound) (hn : n < s.nodes.size) : s.Writes n (s.formula n) :=
  ⟨_, h.formula?_eq_some hn, rfl⟩

theorem Writes.lt (h : s.Writes n f) : n < s.nodes.size := by
  obtain ⟨g, hg, -⟩ := h
  exact formula?_lt hg

theorem Writes.byText_formula (hs : s.Sound) (h : s.Writes n f) :
    (s.formula n).byText = f.byText :=
  (hs.writes_formula h.lt).byText_eq h

theorem Keeps.formula_eq (h : s.Keeps s') (hs : s.Sound) (hn : n < s.nodes.size) :
    s'.formula n = s.formula n := by
  have hf := h.formula? (hs.formula?_eq_some hn)
  rw [formula, hf]
  rfl

theorem Answers.exists_writes {f? : Option Formula} (h : s.Answers f? (some n)) :
    ∃ f, f? = some f ∧ s.Writes n f := by
  cases f? with
  | none => exact h.elim
  | some f => exact ⟨f, rfl, h⟩

theorem Answers.map_byText {f? : Option Formula} {n? : Option Nat} (h : s.Answers f? n?)
    (hs : s.Sound) : n?.map (fun n => (s.formula n).byText) = f?.map byText := by
  cases f? with
  | none => cases n? with
    | none => rfl
    | some n => exact h.elim
  | some f => cases n? with
    | none => exact h.elim
    | some n => exact congrArg some (Writes.byText_formula hs h)

theorem make_run (op : Operator) (left right : Option Nat) (s : NodeTable) :
    run (.make op left right) s = match op, left, right with
      | .unary op, some k, none => (some (add (.unary op k) s).1, (add (.unary op k) s).2)
      | .binary op, some k, some l => (some (add (.binary op k l) s).1, (add (.binary op k l) s).2)
      | _, _, _ => (none, s) := by
  cases op <;> cases left <;> cases right <;> rfl

theorem Makes.meets {r : Nat × NodeTable} (h : Makes s f r) :
    Enters s [f] r.2 ∧ r.2.Answers (some f) (some r.1) :=
  ⟨h.enters, h.writes⟩

theorem make_meets (h : s.Sound) (op : Operator) {left right : Option Nat}
    (hoperands : ∀ n ∈ (Call.make op left right).operands, n < s.nodes.size) :
    Enters s (ofOperands? op (left.map s.formula) (right.map s.formula)).toList
        (run (.make op left right) s).2 ∧
      (run (.make op left right) s).2.Answers
        (ofOperands? op (left.map s.formula) (right.map s.formula))
        (run (.make op left right) s).1 := by
  rw [make_run]
  split
  · rename_i op k
    have hk := h.writes_formula (hoperands k (by simp [Table.Call.operands]))
    exact (add_unary_makes h op hk).meets
  · rename_i op k l
    have hk := h.writes_formula (hoperands k (by simp [Table.Call.operands]))
    have hl := h.writes_formula (hoperands l (by simp [Table.Call.operands]))
    exact (add_binary_makes h op hk hl).meets
  · rename_i hunary hbinary
    have hnone : ofOperands? op (left.map s.formula) (right.map s.formula) = none := by
      cases op <;> cases left <;> cases right <;> simp_all [ofOperands?]
    rw [hnone]
    exact ⟨h.enters_self, trivial⟩

theorem interpret_meets (h : s.Sound) (u : Term) :
    Enters s (Call.interpret u).made (run (.interpret u) s).2 ∧
      (run (.interpret u) s).2.Answers (Call.interpret u).formula? (run (.interpret u) s).1 := by
  obtain ⟨hreads, hanswers⟩ := interpret_reads h ∅ u
  exact ⟨hreads.enters, hanswers⟩

theorem run_meets (h : s.Sound) (c : Call Nat) (hoperands : ∀ n ∈ c.operands, n < s.nodes.size) :
    Enters s (c.map s.formula).made (run c s).2 ∧
      (run c s).2.Answers (c.map s.formula).formula? (run c s).1 := by
  cases c with
  | atom e => exact (atom_makes h e).meets
  | named name => exact (atom_makes h (.symbol () name)).meets
  | make op left right => exact make_meets h op hoperands
  | read src =>
    rw [Table.Call.map]
    cases hterm : src.term with
    | error e =>
      have hrun : run (.read src) s = (none, s) := by
        simp only [run, read, readSpans, hterm]
        rfl
      simp only [hrun, Table.Call.made, Table.Call.formula?, hterm]
      exact ⟨h.enters_self, trivial⟩
    | ok u =>
      have hrun : run (.read src) s = run (.interpret u) s := by
        simp only [run, read, readSpans, hterm]
        rfl
      simp only [hrun, Table.Call.made, Table.Call.formula?, hterm]
      exact interpret_meets h u
  | interpret u => exact interpret_meets h u
  | normal n =>
    exact (normal_makes h (h.writes_formula (hoperands n (by simp [Table.Call.operands])))).meets
  | negation n =>
    exact (negation_makes h (h.writes_formula (hoperands n (by simp [Table.Call.operands])))).meets

/-- A table of nodes has the formulas of a table of formulas, up to the text of atomic
propositions. -/
def Matches (s : NodeTable) (t : Table) : Prop := ∃ S, s.Records S ∧ t.Records S

variable {t : Table}

theorem matches_empty : (∅ : NodeTable).Matches ∅ := ⟨∅, records_empty, Table.records_empty⟩

theorem Matches.size_eq (h : s.Matches t) : s.size = t.size := by
  obtain ⟨S, hs, ht⟩ := h
  rw [hs.size_eq, ht.size_eq]

/-- A call on nodes and the same call on formulas do the same, as far as it is seen in how formulas
are written. -/
theorem Matches.call (h : s.Matches t) {c : Call Nat} {c' : Call Formula}
    (hc : (c.map s.formula).map byText = c'.map byText)
    (hoperands : ∀ n ∈ c.operands, n < s.nodes.size) (hoperands' : ∀ f ∈ c'.operands, t.Has f) :
    (run c s).2.Matches (c'.run t).2 ∧
      (run c s).1.map (fun n => ((run c s).2.formula n).byText) = (c'.run t).1.map byText := by
  obtain ⟨S, hs, ht⟩ := h
  obtain ⟨henters, hanswers⟩ := run_meets hs.sound c hoperands
  obtain ⟨henters', hanswers'⟩ := c'.run_spec ⟨S, ht⟩ hoperands'
  constructor
  · refine ⟨_, henters.records hs, ?_⟩
    rw [Table.Call.allKeys_made_congr hc]
    exact henters'.records ht
  · rw [hanswers.map_byText henters.adds.sound, hanswers'.map_byText,
      Table.Call.formula?_congr hc]

structure Event where
  call : Call Nat
  result : Option Nat
  /-- The table when the call returned. -/
  after : NodeTable

/-- The call with the formulas of the nodes that were passed. -/
def Event.asked (e : Event) : Call Formula := e.call.map e.after.formula

/-- Calls one after another on a table that was empty.  Only nodes of the table are passed. -/
inductive Run : List Event → NodeTable → Prop
  | start : Run [] ∅
  | call {es : List Event} {s : NodeTable} (h : Run es s) (c : Call Nat)
      (hoperands : ∀ n ∈ c.operands, n < s.nodes.size) :
      Run (es ++ [⟨c, (run c s).1, (run c s).2⟩]) (run c s).2

/-- The formulas that were asked for, with everything beneath them, have nodes and no others, and
every call returned the node of what it asked for, which has stayed as it was. -/
theorem Run.records {es : List Event} (h : Run es s) :
    s.Records (allKeys (es.flatMap (·.asked.made))) ∧
      ∀ e ∈ es, e.after.Keeps s ∧ s.Answers e.asked.formula? e.result := by
  induction h with
  | start => exact ⟨records_empty, by simp⟩
  | @call es s h c hoperands ih =>
    obtain ⟨hrecords, hes⟩ := ih
    obtain ⟨henters, hanswers⟩ := run_meets hrecords.sound c hoperands
    have hkeeps := henters.adds.keeps
    have hasked : c.map s.formula = c.map (run c s).2.formula :=
      Table.Call.map_congr fun n hn =>
        (hkeeps.formula_eq hrecords.sound (hoperands n hn)).symm
    rw [hasked] at henters hanswers
    constructor
    · rw [List.flatMap_append, allKeys_append, List.flatMap_singleton]
      exact henters.records hrecords
    · intro e he
      obtain he | he := List.mem_append.1 he
      · obtain ⟨hafter, hresult⟩ := hes e he
        exact ⟨hafter.trans hkeeps, hresult.keeps hkeeps⟩
      · obtain rfl := List.mem_singleton.1 he
        exact ⟨.refl _, hanswers⟩

theorem Matches.exists_has (h : s.Matches t) (hn : n < s.nodes.size) :
    ∃ f, t.Has f ∧ f.byText = (s.formula n).byText := by
  obtain ⟨S, hs, ht⟩ := h
  exact (ht.mem_iff _).1 ((hs.mem_iff _).2 ⟨n, _, hs.sound.formula?_eq_some hn, rfl⟩)

/-- The formulas of what some calls returned, by how they are written. -/
def texts (s : NodeTable) (es : List Event) : List (Option Formula) :=
  es.map fun e => e.result.map fun n => (s.formula n).byText

theorem Run.texts_eq {es : List Event} (h : Run es s) (hkeeps : s.Keeps s') :
    s'.texts es = s.texts es := by
  obtain ⟨hrecords, hes⟩ := h.records
  have hsound := hrecords.sound
  refine List.map_congr_left fun e he => Option.map_congr fun n hn => ?_
  have hresult := (hes e he).2
  rw [hn] at hresult
  obtain ⟨f, -, hf⟩ := hresult.exists_writes
  rw [hkeeps.formula_eq hsound hf.lt]

/-- Calls on nodes can be made on formulas, where what is passed is the formula in the table that is
written like the one of the node. -/
theorem Run.exists_calls {es : List Event} (h : Run es s) : ∃ cs : List (Call Formula),
    cs.map (·.map byText) = es.map (·.asked.map byText) ∧
      s.Matches (cs.mapM Call.run (∅ : Table)).2 ∧
      (cs.mapM Call.run (∅ : Table)).1.map (·.map byText) = s.texts es := by
  induction h with
  | start => exact ⟨[], rfl, matches_empty, rfl⟩
  | @call es s h c hoperands ih =>
    obtain ⟨cs, hcs, hmatches, htexts⟩ := ih
    have hsound := h.records.1.sound
    have hkeeps := (run_meets hsound c hoperands).1.adds.keeps
    have hexists : ∀ n, ∃ f, n < s.nodes.size →
        (cs.mapM Call.run (∅ : Table)).2.Has f ∧ f.byText = (s.formula n).byText := by
      intro n
      by_cases hn : n < s.nodes.size
      · obtain ⟨f, hf⟩ := hmatches.exists_has hn
        exact ⟨f, fun _ => hf⟩
      · exact ⟨default, fun hn' => absurd hn' hn⟩
    choose r hr using hexists
    have hwritten : (c.map s.formula).map byText = (c.map r).map byText := by
      rw [Table.Call.map_map, Table.Call.map_map]
      exact Table.Call.map_congr fun n hn => (hr n (hoperands n hn)).2.symm
    have hhas : ∀ f ∈ (c.map r).operands, (cs.mapM Call.run (∅ : Table)).2.Has f := by
      rw [Table.Call.operands_map]
      exact List.forall_mem_map.2 fun n hn => (hr n (hoperands n hn)).1
    obtain ⟨hmatches', htext'⟩ := hmatches.call hwritten hoperands hhas
    have hasked : c.map (run c s).2.formula = c.map s.formula :=
      Table.Call.map_congr fun n hn => hkeeps.formula_eq hsound (hoperands n hn)
    have hmapM : (cs ++ [c.map r]).mapM Call.run (∅ : Table) =
        ((cs.mapM Call.run (∅ : Table)).1 ++ [((c.map r).run (cs.mapM Call.run (∅ : Table)).2).1],
          ((c.map r).run (cs.mapM Call.run (∅ : Table)).2).2) := by
      rw [List.mapM_append]
      rfl
    refine ⟨cs ++ [c.map r], ?_, ?_, ?_⟩
    · rw [List.map_append, List.map_append, hcs, List.map_singleton, List.map_singleton,
        Event.asked, hasked, hwritten]
    · rw [hmapM]
      exact hmatches'
    · rw [hmapM, List.map_append, htexts, ← h.texts_eq hkeeps, texts, texts, List.map_append,
        List.map_singleton, List.map_singleton, htext']

/-- What calls on a table have in common, whichever they are. -/
structure Interned (es : List Event) (s : NodeTable) : Prop where
  /-- A call returns a node of the table, if it asks for a formula. -/
  returned : ∀ e ∈ es, ∀ n, e.result = some n → n < s.nodes.size
  /-- The formula of the node is written like the one that is asked for. -/
  answered : ∀ e ∈ es,
    e.result.map (fun n => (s.formula n).byText) = e.asked.formula?.map byText
  /-- Two nodes are the same if their formulas are written alike. -/
  same_iff : ∀ m n, m < s.nodes.size → n < s.nodes.size →
    (m = n ↔ (s.formula m).byText = (s.formula n).byText)
  /-- A node keeps its operator, its operands, its expression and its depth. -/
  kept : ∀ e ∈ es, ∀ (n : Nat) (node : Formula.Node),
    e.after.nodes[n]? = some node → s.nodes[n]? = some node
  depth_le : ∀ n < s.nodes.size, ∀ b ∈ (s.formula n).branches,
    b.countP Operator.isTemporal ≤ s.depth n
  depth_attained : ∀ n < s.nodes.size, ∃ b ∈ (s.formula n).branches,
    b.countP Operator.isTemporal = s.depth n
  /-- The size is the number of formulas that were made and differ in how they are written. -/
  size_eq : s.size = (allKeys (es.flatMap (·.asked.made))).card
  /-- The calls can be made on formulas, written like those of the nodes, which comes to the same as
  far as it is seen in how formulas are written. -/
  matched : ∃ cs : List (Call Formula), cs.map (·.map byText) = es.map (·.asked.map byText) ∧
    s.Matches (cs.mapM Call.run (∅ : Table)).2 ∧
    (cs.mapM Call.run (∅ : Table)).1.map (·.map byText) = s.texts es

/-- Formulas are interned by whatever calls are made on a table. -/
theorem Run.nodes_interned {es : List Event} (h : Run es s) : Interned es s := by
  obtain ⟨hrecords, hes⟩ := h.records
  have hsound := hrecords.sound
  have hdepth : ∀ n < s.nodes.size, s.depth n = (s.formula n).depth := fun n hn =>
    hsound.depth_eq (hsound.formula?_eq_some hn)
  constructor
  · intro e he n hn
    have hresult := (hes e he).2
    rw [hn] at hresult
    obtain ⟨f, -, hf⟩ := hresult.exists_writes
    exact hf.lt
  · exact fun e he => (hes e he).2.map_byText hsound
  · intro m n hm hn
    constructor
    · rintro rfl
      rfl
    · exact fun htext => hsound.eq_of_byText_eq (hsound.formula?_eq_some hm)
        (hsound.formula?_eq_some hn) htext.symm
  · exact fun e he => (hes e he).1
  · intro n hn
    rw [hdepth n hn]
    exact countP_le_depth _
  · intro n hn
    rw [hdepth n hn]
    exact exists_countP_eq_depth _
  · exact hrecords.size_eq
  · exact h.exists_calls

/-- A list and the symbol with its text are one node, which is also the operand of the node of a
text that has the list in it. -/
theorem Run.nodes_interned_list : ∃ es s m n depth, Run es s ∧ Interned es s ∧
    es.map (·.call) = [.atom (.list () [.symbol () "p"]), .named "(p)",
      .read (Source.ofString "next" "(X (p))")] ∧
    es.map (·.result) = [some m, some m, some n] ∧
    s.nodes[n]? = some ⟨.unary .next m, depth⟩ ∧ s.size = 2 := by
  have h₁ := Run.start.call (.atom (.list () [.symbol () "p"])) (by simp [Table.Call.operands])
  have h₂ := h₁.call (.named "(p)") (by simp [Table.Call.operands])
  have h₃ := h₂.call (.read (Source.ofString "next" "(X (p))")) (by simp [Table.Call.operands])
  have hinterned := Run.nodes_interned h₃
  have hsound := h₃.records.1.sound
  generalize run (.read _) _ = read at h₃ hinterned hsound
  generalize run (.named _) _ = named at h₃ hinterned
  generalize run (.atom _) _ = first at h₃ hinterned
  have hroot : (Source.ofString "next" "(X (p))").term = .ok (.list ⟨0, 7⟩
      [.symbol ⟨1, 2⟩ "X", .list ⟨3, 6⟩ [.symbol ⟨4, 5⟩ "p"]]) := by cbv
  have hsize := hinterned.size_eq
  simp only [List.nil_append, List.cons_append, List.flatMap_cons, Event.asked, Table.Call.map,
    Table.Call.made, hroot] at hsize
  have hasked : (Call.read (Source.ofString "next" "(X (p))")).formula? =
      some (.unary .next (.atom (.list () [.symbol () "p"]))) := by
    rw [Table.Call.formula?, hroot]
    rfl
  have hanswered := hinterned.answered
  have hreturned := hinterned.returned
  simp only [List.nil_append, List.cons_append, List.forall_mem_cons, Event.asked, Table.Call.map,
    hasked] at hanswered hreturned
  obtain ⟨hfirst, hnamed, hread, -⟩ := hanswered
  obtain ⟨hfirst', hnamed', hread', -⟩ := hreturned
  obtain ⟨m, hm, hmText⟩ := Option.map_eq_some_iff.1 hfirst
  obtain ⟨m', hm', hmText'⟩ := Option.map_eq_some_iff.1 hnamed
  obtain ⟨n, hn, hnText⟩ := Option.map_eq_some_iff.1 hread
  obtain rfl : m = m' := (hinterned.same_iff m m' (hfirst' m hm) (hnamed' m' hm')).2
    (hmText.trans hmText'.symm)
  obtain ⟨k, hkn, hshape, hk⟩ := writes_unary
    ((hsound.writes_formula (hread' n hn)).congr hnText)
  obtain rfl : k = m := (hinterned.same_iff k m hk.lt (hfirst' m hm)).2
    ((hk.byText_formula hsound).trans hmText.symm)
  obtain ⟨⟨shape, depth⟩, hnode, rfl⟩ := Option.map_eq_some_iff.1 hshape
  exact ⟨_, _, k, n, depth, h₃, hinterned, rfl, by simp [hm, hm', hn], hnode, hsize.trans rfl⟩

end NodeTable

end Lasso
