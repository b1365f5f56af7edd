import Lasso.Proofs.Machine.Encoding

/-! # New variables

Allocating a variable, at a time or by a declaration, keeps an encoding well-formed.  A variable
has one boolean variable at each time, and whatever was declared before stays declared.
-/

namespace Lasso

set_option autoImplicit false

namespace Encoding

theorem WellFormed.origins_size {e : Encoding} (wf : e.WellFormed) :
    e.origins[e.graph.size]? = none := by
  cases ho : e.origins[e.graph.size]? with
  | none => rfl
  | some o => exact absurd (wf.lt_size ho) (Nat.lt_irrefl _)

theorem wellFormed_empty : (∅ : Encoding).WellFormed where
  graph := Graph.wellFormed_empty
  origins v o ho := by simp [EmptyCollection.emptyCollection, empty] at ho
  timeline i t l := by simp [EmptyCollection.emptyCollection, empty]
  index i x hx := by simp [EmptyCollection.emptyCollection, empty] at hx
  positive i x hx := by simp [EmptyCollection.emptyCollection, empty] at hx
  current i v := by simp [EmptyCollection.emptyCollection, empty]
  next i v := by simp [EmptyCollection.emptyCollection, empty]

theorem WellFormed.timed {e : Encoding} (wf : e.WellFormed) {i : Nat} {t : UInt64}
    (hnew : e.timeline[(i, t)]? = none) :
    ({ e with graph := (Graph.input e.graph).2,
              origins := e.origins.insert e.graph.size (.timed i t),
              timeline := e.timeline.insert (i, t) (.pos e.graph.size) } : Encoding).WellFormed := by
  have hinput := Graph.input_builds wf.graph
  -- the new node had no origin before, so that all other origins are as they were
  have hold : ∀ (v : Nat) (o : Origin), o ≠ .timed i t →
      ((e.origins.insert e.graph.size (.timed i t))[v]? = some o ↔ e.origins[v]? = some o) := by
    intro v o ho
    rw [Std.HashMap.getElem?_insert]
    by_cases hv : e.graph.size = v
    · subst hv
      simp [wf.origins_size, ho.symm]
    · simp [hv]
  refine ⟨hinput.wf, fun v o ho => ?_, fun j u l => ?_, wf.index, wf.positive, fun j v => ?_,
    fun j v => ?_⟩
  · change (e.origins.insert e.graph.size (.timed i t))[v]? = some o at ho
    rw [Std.HashMap.getElem?_insert] at ho
    by_cases hv : e.graph.size = v
    · subst hv
      simp [Graph.input, Graph.size]
    · rw [if_neg (by simpa using hv)] at ho
      exact (Graph.nodes_eq_of_le hinput.grows (wf.lt_size ho)).trans (wf.origins v o ho)
  · change (e.timeline.insert (i, t) (.pos e.graph.size))[(j, u)]? = some l ↔
      l.negated = false ∧ (e.origins.insert e.graph.size (.timed i t))[l.var]? = some (.timed j u)
    rw [Std.HashMap.getElem?_insert]
    by_cases hkey : (i, t) = (j, u)
    · obtain ⟨rfl, rfl⟩ := Prod.mk.inj hkey
      rw [if_pos (by simp), Std.HashMap.getElem?_insert]
      constructor
      · intro hl
        cases hl
        simp
      · rintro ⟨hneg, ho⟩
        by_cases hv : e.graph.size = l.var
        · rw [Option.some.injEq, hv]
          exact (Lit.eq_pos_of_negated hneg).symm
        · rw [if_neg (by simpa using hv)] at ho
          rw [(wf.timeline i t l).2 ⟨hneg, ho⟩] at hnew
          cases hnew
    · have hne : ¬ (i = j ∧ t = u) := fun h => hkey (by rw [h.1, h.2])
      rw [if_neg (by simpa using hne), hold _ _ (by simpa [eq_comm] using hne)]
      exact wf.timeline j u l
  · rw [hold _ _ (by simp)]
    exact wf.current j v
  · rw [hold _ _ (by simp)]
    exact wf.next j v

theorem variableAt_eq (i : Nat) (t : UInt64) (e : Encoding) :
    variableAt i t e = match e.timeline[(i, t)]? with
      | some l => (l, e)
      | none => (.pos e.graph.size,
        { e with graph := (Graph.input e.graph).2,
                 origins := e.origins.insert e.graph.size (.timed i t),
                 timeline := e.timeline.insert (i, t) (.pos e.graph.size) }) := by
  change (match e.timeline[(i, t)]? with
    | some l => (return l : StateM Encoding Lit)
    | none => _) e = _
  cases e.timeline[(i, t)]? <;> rfl

theorem variableAt_builds {e : Encoding} (wf : e.WellFormed) (i : Nat) (t : UInt64) :
    e.Builds (variableAt i t e) (fun V => V (.timed i t)) := by
  rw [variableAt_eq]
  cases hl : e.timeline[(i, t)]? with
  | some l =>
    obtain ⟨hpos, ho⟩ := (wf.timeline i t l).1 hl
    rw [Lit.eq_pos_of_negated hpos]
    exact Builds.of_denotes wf (wf.denotes_origin ho)
  | none =>
    have hinput := Graph.input_builds wf.graph
    have wf' := wf.timed hl
    refine ⟨wf', ⟨hinput.grows, fun v hv => ?_, fun _ _ hx => hx⟩, rfl, ?_⟩
    · change (e.origins.insert e.graph.size (.timed i t))[v]? = e.origins[v]?
      rw [Std.HashMap.getElem?_insert, if_neg (by simp; omega)]
    · exact wf'.denotes_origin (by simp)

theorem timeline_variableAt {e : Encoding} (i : Nat) (t : UInt64) :
    (variableAt i t e).2.timeline[(i, t)]? = some (variableAt i t e).1 := by
  rw [variableAt_eq]
  cases hl : e.timeline[(i, t)]? with
  | some l => exact hl
  | none => simp

theorem WellFormed.declared {e : Encoding} (wf : e.WellFormed) {g : Graph} (wfg : g.WellFormed)
    (hle : e.graph ≤ g) {x : Variable} (hindex : x.index = e.vars.size)
    {origins : Std.HashMap Nat Origin}
    (horigins : ∀ (v : Nat) (o : Origin), origins[v]? = some o ↔ e.origins[v]? = some o ∨
      (o = .current x.index ∧ x.current = .pos v) ∨ (o = .next x.index ∧ x.role = .state (.pos v)))
    (hcurrent : x.current.negated = false ∧ g.nodes[x.current.var]? = some .input)
    (hnext : ∀ l, x.role = .state l → l.negated = false ∧ g.nodes[l.var]? = some .input) :
    ({ e with graph := g, vars := e.vars.push x, origins } : Encoding).WellFormed := by
  -- no form of the new variable stands for anything yet, as its index is not in use
  have hfresh : ∀ v : Nat, e.origins[v]? ≠ some (.current x.index) ∧
      e.origins[v]? ≠ some (.next x.index) := by
    intro v
    constructor
    · intro ho
      obtain ⟨y, hy, -⟩ := (wf.current _ v).1 ho
      simp [hindex] at hy
    · intro ho
      obtain ⟨y, hy, -⟩ := (wf.next _ v).1 ho
      simp [hindex] at hy
  have hpush : ∀ (i : Nat) (y : Variable), (e.vars.push x)[i]? = some y ↔
      (i = x.index ∧ y = x) ∨ (i ≠ x.index ∧ e.vars[i]? = some y) := by
    intro i y
    rw [Array.getElem?_push, hindex]
    by_cases hi : i = e.vars.size
    · simp [hi, eq_comm]
    · simp [hi]
  refine ⟨wfg, fun v o ho => ?_, fun i t l => ?_, fun i y hy => ?_, fun i y hy => ?_, fun i v => ?_,
    fun i v => ?_⟩
  · rcases (horigins v o).1 ho with ho | ⟨-, hcur⟩ | ⟨-, hrole⟩
    · exact (Graph.nodes_eq_of_le hle (wf.lt_size ho)).trans (wf.origins v o ho)
    · simpa [hcur] using hcurrent.2
    · simpa using (hnext _ hrole).2
  · change e.timeline[(i, t)]? = some l ↔ l.negated = false ∧ origins[l.var]? = some (.timed i t)
    rw [wf.timeline i t l, horigins]
    simp
  · rcases (hpush i y).1 hy with ⟨rfl, rfl⟩ | ⟨-, hy⟩
    · rfl
    · exact wf.index i y hy
  · rcases (hpush i y).1 hy with ⟨rfl, rfl⟩ | ⟨-, hy⟩
    · exact ⟨hcurrent.1, fun l hl => (hnext l hl).1⟩
    · exact wf.positive i y hy
  · change origins[v]? = some (.current i) ↔ ∃ y, (e.vars.push x)[i]? = some y ∧ y.current = .pos v
    rw [horigins, wf.current i v]
    simp only [hpush, Origin.current.injEq, reduceCtorEq, false_and, or_false]
    constructor
    · rintro (⟨y, hy, hcur⟩ | ⟨rfl, hcur⟩)
      · refine ⟨y, .inr ⟨?_, hy⟩, hcur⟩
        rintro rfl
        exact (hfresh v).1 ((wf.current _ v).2 ⟨y, hy, hcur⟩)
      · exact ⟨x, .inl ⟨rfl, rfl⟩, hcur⟩
    · rintro ⟨y, ⟨rfl, rfl⟩ | ⟨-, hy⟩, hcur⟩
      · exact .inr ⟨rfl, hcur⟩
      · exact .inl ⟨y, hy, hcur⟩
  · change origins[v]? = some (.next i) ↔
      ∃ y, (e.vars.push x)[i]? = some y ∧ y.role = .state (.pos v)
    rw [horigins, wf.next i v]
    simp only [hpush, Origin.next.injEq, reduceCtorEq, false_and, false_or]
    constructor
    · rintro (⟨y, hy, hrole⟩ | ⟨rfl, hrole⟩)
      · refine ⟨y, .inr ⟨?_, hy⟩, hrole⟩
        rintro rfl
        exact (hfresh v).2 ((wf.next _ v).2 ⟨y, hy, hrole⟩)
      · exact ⟨x, .inl ⟨rfl, rfl⟩, hrole⟩
    · rintro ⟨y, ⟨rfl, rfl⟩ | ⟨-, hy⟩, hrole⟩
      · exact .inr ⟨rfl, hrole⟩
      · exact .inl ⟨y, hy, hrole⟩

/-- The boolean variables allocated by a declaration, one for an input and two for the state. -/
theorem declare_eq (isInput : Bool) (name : String) (e : Encoding) :
    declare isInput name e =
      if (e.lookup? name).isSome then (.error (.duplicate name), e)
      else if isReserved name then (.error (.reserved name), e)
      else if isInput then
        let x : Variable := ⟨name, e.vars.size, .pos e.graph.size, .input⟩
        (.ok x, { e with graph := (Graph.input e.graph).2, vars := e.vars.push x,
                         origins := e.origins.insert e.graph.size (.current e.vars.size) })
      else
        let x : Variable :=
          ⟨name, e.vars.size, .pos e.graph.size, .state (.pos (Graph.input e.graph).2.size)⟩
        (.ok x, { e with graph := (Graph.input (Graph.input e.graph).2).2, vars := e.vars.push x,
                         origins := (e.origins.insert e.graph.size (.current e.vars.size)).insert
                           (Graph.input e.graph).2.size (.next e.vars.size) }) := by
  change (if (e.lookup? name).isSome then _ else _ : StateM Encoding _) e = _
  split
  · rfl
  split
  · rfl
  cases isInput <;> rfl

theorem declare_grows {e : Encoding} (wf : e.WellFormed) (isInput : Bool) (name : String) :
    (declare isInput name e).2.WellFormed ∧ e ≤ (declare isInput name e).2 := by
  have hfirst := Graph.input_builds wf.graph
  have hsecond := Graph.input_builds hfirst.wf
  have hsize : (Graph.input e.graph).2.size = e.graph.size + 1 := by
    simp [Graph.input, Graph.size]
  have hnode : (Graph.input e.graph).2.nodes[e.graph.size]? = some .input := by
    simp [Graph.input, Graph.size]
  have hvars : ∀ x : Variable, ∀ (i : Nat) (y : Variable), e.vars[i]? = some y →
      (e.vars.push x)[i]? = some y := by
    intro x i y hy
    rw [Array.getElem?_push, if_neg]
    · exact hy
    · have := (Array.getElem?_eq_some_iff.1 hy).1
      omega
  -- a reserved name and one that is taken leave everything as it is; an input takes one new node, a
  -- state variable two
  rw [declare_eq]
  split
  · exact ⟨wf, le_refl e⟩
  split
  · exact ⟨wf, le_refl e⟩
  split
  · refine ⟨wf.declared hfirst.wf hfirst.grows rfl (fun v o => ?_) ⟨rfl, hnode⟩ (by simp),
      ⟨hfirst.grows, fun v hv => ?_, hvars _⟩⟩
    · rw [Std.HashMap.getElem?_insert]
      by_cases hv : e.graph.size = v
      · subst hv
        simp [wf.origins_size, eq_comm]
      · simp [hv, Lit.pos_inj]
    · change (e.origins.insert e.graph.size _)[v]? = _
      rw [Std.HashMap.getElem?_insert, if_neg (by simp; omega)]
  · refine ⟨wf.declared hsecond.wf (le_trans hfirst.grows hsecond.grows) rfl (fun v o => ?_) ?_ ?_,
      ⟨le_trans hfirst.grows hsecond.grows, fun v hv => ?_, hvars _⟩⟩
    · rw [Std.HashMap.getElem?_insert, Std.HashMap.getElem?_insert, hsize]
      by_cases hnext : e.graph.size + 1 = v
      · subst hnext
        have hnone : e.origins[e.graph.size + 1]? = none := by
          cases ho : e.origins[e.graph.size + 1]? with
          | none => rfl
          | some o => exact absurd (wf.lt_size ho) (by omega)
        simp [hnone, Lit.pos_inj, eq_comm]
      by_cases hv : e.graph.size = v
      · subst hv
        simp only [hnext, beq_iff_eq, if_false, if_true, wf.origins_size, Lit.pos_inj,
          Option.some.injEq, reduceCtorEq, Role.state.injEq, and_true, and_false, or_false, false_or]
        exact eq_comm
      · simp [hnext, hv, Lit.pos_inj]
    · exact ⟨rfl, (Graph.nodes_eq_of_le hsecond.grows (by simp [hsize])).trans hnode⟩
    · intro l hl
      cases hl
      have hnode' : (Graph.input (Graph.input e.graph).2).2.nodes[(Graph.input e.graph).2.size]? =
          some .input := by
        rw [Graph.input, Graph.size, Array.getElem?_push, if_pos rfl]
      exact ⟨rfl, hnode'⟩
    · change ((e.origins.insert e.graph.size _).insert _ _)[v]? = _
      rw [hsize, Std.HashMap.getElem?_insert, if_neg (by simp; omega),
        Std.HashMap.getElem?_insert, if_neg (by simp; omega)]

end Encoding

end Lasso
