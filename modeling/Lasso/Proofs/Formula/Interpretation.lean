import Lasso.Proofs.Formula.Reading

/-! # Reading into a table

The formulas of the parts of a term enter a table, also if the term itself is none.  Then they are
kept with their spans, as far as the parts have formulas in the table that differ.
-/

namespace Lasso

set_option autoImplicit false

namespace Formula

/-- Some formulas and everything beneath them, up to the text of atomic propositions. -/
def allKeys (fs : List Formula) : Finset Formula := ((fs.flatMap preorder).map byText).toFinset

theorem mem_allKeys_iff {fs : List Formula} {k : Formula} :
    k ∈ allKeys fs ↔ ∃ f ∈ fs, k ∈ f.keys := by
  simp only [allKeys, List.mem_toFinset, List.mem_map, List.mem_flatMap, mem_keys_iff]
  constructor
  · rintro ⟨g, ⟨f, hf, hg⟩, rfl⟩
    exact ⟨f, hf, g, hg, rfl⟩
  · rintro ⟨f, hf, g, hg, rfl⟩
    exact ⟨g, ⟨f, hf, hg⟩, rfl⟩

theorem keys_subset_allKeys {fs : List Formula} {f : Formula} (h : f ∈ fs) :
    f.keys ⊆ allKeys fs := fun _ hk => mem_allKeys_iff.2 ⟨f, h, hk⟩

theorem allKeys_append (fs gs : List Formula) : allKeys (fs ++ gs) = allKeys fs ∪ allKeys gs := by
  simp [allKeys]

theorem allKeys_mono {fs gs : List Formula} (h : fs ⊆ gs) : allKeys fs ⊆ allKeys gs := by
  intro k hk
  obtain ⟨f, hf, hk⟩ := mem_allKeys_iff.1 hk
  exact mem_allKeys_iff.2 ⟨f, h hf, hk⟩

end Formula

namespace Table

open Formula SExpr

/-- A formula is the one in the table that is written like another one. -/
structure Stores (t : Table) (f g : Formula) : Prop where
  has : t.Has g
  byText_eq : g.byText = f.byText

variable {t t' : Table} {f g : Formula}

theorem Makes.stores {r : Formula × Table} (h : Makes t f r) : r.2.Stores f r.1 :=
  ⟨h.has, h.byText_eq⟩

theorem Stores.keeps (h : t.Stores f g) (hkeeps : t.Keeps t') : t'.Stores f g :=
  ⟨hkeeps g h.has, h.byText_eq⟩

theorem Stores.unique {g' : Formula} (wf : t.WellFormed) (h : t.Stores f g) (h' : t.Stores f g') :
    g = g' :=
  wf.eq_of_byText_eq h'.has h.has (h.byText_eq.trans h'.byText_eq.symm)

theorem Stores.of_mem_preorder (wf : t.WellFormed) (h : t.Stores f g) {k : Formula}
    (hk : k ∈ f.preorder) : ∃ g', t.Stores k g' := by
  have hkeys : k.byText ∈ g.keys := by
    rw [keys_congr h.byText_eq]
    exact mem_keys_iff.2 ⟨k, hk, rfl⟩
  obtain ⟨g', hg', htext⟩ := mem_keys_iff.1 hkeys
  exact ⟨g', wf.has_of_mem h.has hg', htext⟩

theorem add_of_has (hatom : ∀ e, f ≠ .atom e) (h : t.Has f) : add f t = (f, t) := by
  have hmem : f ∈ t.compounds := by
    cases f with
    | atom e => exact absurd rfl (hatom e)
    | unary op f => exact h
    | binary op f g => exact h
  rw [add_eq, if_pos hmem]

theorem Stores.atom {e : Expr} (h : t.Stores (.atom e) g) :
    ∃ first, g = .atom first ∧ t.atoms[e.text]? = some first := by
  obtain ⟨first, rfl, htext⟩ := byText_eq_atom_iff.1 h.byText_eq
  have hfirst : t.atoms[first.text]? = some first := h.has
  exact ⟨first, rfl, htext ▸ hfirst⟩

theorem Stores.unary {op : UnaryOp} (wf : t.WellFormed) (h : t.Stores (.unary op f) g) :
    ∃ g', g = .unary op g' ∧ t.Stores f g' := by
  obtain ⟨g', rfl, hg'⟩ := byText_eq_unary_iff.1 h.byText_eq
  exact ⟨g', rfl, wf.unary h.has, hg'⟩

theorem Stores.binary {op : BinaryOp} {f' : Formula} (wf : t.WellFormed)
    (h : t.Stores (.binary op f f') g) :
    ∃ g₁ g₂, g = .binary op g₁ g₂ ∧ t.Stores f g₁ ∧ t.Stores f' g₂ := by
  obtain ⟨g₁, g₂, rfl, hg₁, hg₂⟩ := byText_eq_binary_iff.1 h.byText_eq
  obtain ⟨h₁, h₂⟩ := wf.binary h.has
  exact ⟨g₁, g₂, rfl, ⟨h₁, hg₁⟩, ⟨h₂, hg₂⟩⟩

theorem atom_of_stores {e : Expr} (h : t.Stores (.atom e) g) : atom e t = (g, t) := by
  obtain ⟨first, rfl, hfirst⟩ := h.atom
  rw [Table.atom, hfirst]

/-- What is in the table is not interned again. -/
theorem intern_of_stores (wf : t.WellFormed) (h : t.Stores f g) : intern f t = (g, t) := by
  induction f generalizing g with
  | atom e => exact atom_of_stores h
  | unary op f ih =>
    obtain ⟨g', rfl, hg'⟩ := h.unary wf
    rw [intern_unary_eq]
    split
    · rename_i hmem
      have hself : t.Stores (.unary op f) (.unary op f) := ⟨hmem, rfl⟩
      rw [h.unique wf hself]
    · rw [ih hg', add_of_has (by simp) h.has]
  | binary op f₁ f₂ ih₁ ih₂ =>
    obtain ⟨g₁, g₂, rfl, hg₁, hg₂⟩ := h.binary wf
    rw [intern_binary_eq]
    split
    · rename_i hmem
      have hself : t.Stores (.binary op f₁ f₂) (.binary op f₁ f₂) := ⟨hmem, rfl⟩
      rw [h.unique wf hself]
    · rw [ih₁ hg₁, ih₂ hg₂, add_of_has (by simp) h.has]

/-- Some formulas enter a table, with everything beneath them. -/
structure Enters (t : Table) (fs : List Formula) (t' : Table) : Prop where
  adds : Adds (allKeys fs) t t'
  stores : ∀ f ∈ fs, ∃ g, t'.Stores f g

theorem Makes.enters {r : Formula × Table} (h : Makes t f r) : Enters t [f] r.2 := by
  refine ⟨h.adds.mono (keys_subset_allKeys (by simp)), ?_⟩
  simpa using ⟨r.1, h.stores⟩

theorem Enters.append {fs gs : List Formula} {t'' : Table} (h : Enters t fs t')
    (h' : Enters t' gs t'') : Enters t (fs ++ gs) t'' := by
  refine ⟨(h.adds.mono (allKeys_mono (by simp))).trans (h'.adds.mono (allKeys_mono (by simp))), ?_⟩
  intro f hf
  obtain hf | hf := List.mem_append.1 hf
  · obtain ⟨g, hg⟩ := h.stores f hf
    exact ⟨g, hg.keeps h'.adds.keeps⟩
  · exact h'.stores f hf

theorem Enters.records {S : Finset Formula} {fs : List Formula} (h : Enters t fs t')
    (hS : t.Records S) : t'.Records (S ∪ allKeys fs) := by
  refine h.adds.records hS fun k hk => ?_
  obtain ⟨f, hf, hk⟩ := mem_allKeys_iff.1 hk
  obtain ⟨k', hk', rfl⟩ := mem_keys_iff.1 hk
  obtain ⟨g, hg⟩ := h.stores f hf
  obtain ⟨g', hg'⟩ := hg.of_mem_preorder h.adds.sound.wf hk'
  exact ⟨g', hg'.has, hg'.byText_eq⟩

/-- Interns formulas one after another, and keeps their spans. -/
def internEntries (kept : SpanMap Formula) (entries : List (Formula × Span)) :
    StateM Table (SpanMap Formula) :=
  entries.foldlM (fun kept (f, span) => return kept.insertIfNew (← intern f) span) kept

theorem internEntries_cons (kept : SpanMap Formula) (f : Formula) (span : Span)
    (entries : List (Formula × Span)) (t : Table) :
    internEntries kept ((f, span) :: entries) t =
      internEntries (kept.insertIfNew (intern f t).1 span) entries (intern f t).2 := rfl

/-- What becomes of a table, and which formulas of it are kept with a span. -/
structure Interns (t : Table) (kept : SpanMap Formula) (entries : List (Formula × Span))
    (r : SpanMap Formula × Table) : Prop where
  enters : Enters t (entries.map Prod.fst) r.2
  of_get? : ∀ {g : Formula} {span : Span}, r.1.get? g = some span →
    kept.get? g = some span ∨ ∃ f, (f, span) ∈ entries ∧ r.2.Stores f g
  mem : ∀ {g : Formula}, (kept.get? g).isSome ∨ (∃ p ∈ entries, r.2.Stores p.1 g) →
    (r.1.get? g).isSome

theorem internEntries_interns (h : t.Sound) (kept : SpanMap Formula)
    (entries : List (Formula × Span)) :
    Interns t kept entries (internEntries kept entries t) := by
  induction entries generalizing t kept with
  | nil =>
    refine ⟨⟨h.adds_self _, by simp⟩, .inl, ?_⟩
    rintro g (hg | ⟨p, hp, -⟩)
    · exact hg
    · cases hp
  | cons entry entries ih =>
    obtain ⟨f, span⟩ := entry
    rw [internEntries_cons]
    have hf := intern_makes h f
    generalize intern f t = first at hf ⊢
    obtain ⟨henters, hof, hmem⟩ := ih hf.adds.sound (kept.insertIfNew first.1 span)
    generalize internEntries _ entries first.2 = r at henters hof hmem ⊢
    have hstores : r.2.Stores f first.1 := hf.stores.keeps henters.adds.keeps
    refine ⟨hf.enters.append henters, ?_, ?_⟩
    · intro g span' hg
      obtain hg | ⟨k, hk, hg⟩ := hof hg
      · rw [SpanMap.get?_insertIfNew, Option.or_eq_some_iff, Option.ite_none_right_eq_some] at hg
        obtain hg | ⟨-, rfl, hspan⟩ := hg
        · exact .inl hg
        · cases hspan
          exact .inr ⟨f, by simp, hstores⟩
      · exact .inr ⟨k, by simp [hk], hg⟩
    · rintro g (hg | ⟨p, hp, hg⟩)
      · apply hmem
        rw [SpanMap.get?_insertIfNew, Option.isSome_or, hg]
        exact .inl rfl
      · obtain rfl | hp := List.mem_cons.1 hp
        · obtain rfl := hstores.unique henters.adds.sound.wf hg
          apply hmem
          rw [SpanMap.get?_insertIfNew, Option.isSome_or, if_pos rfl, Option.isSome_some,
            Bool.or_true]
          exact .inl rfl
        · exact hmem (.inr ⟨p, hp, hg⟩)

theorem internEntries_of_stores (wf : t.WellFormed) (kept : SpanMap Formula)
    {entries : List (Formula × Span)} (h : ∀ p ∈ entries, ∃ g, t.Stores p.1 g) :
    (internEntries kept entries t).2 = t := by
  induction entries generalizing kept with
  | nil => rfl
  | cons entry entries ih =>
    obtain ⟨f, span⟩ := entry
    rw [List.forall_mem_cons] at h
    obtain ⟨⟨g, hg⟩, hrest⟩ := h
    rw [internEntries_cons, intern_of_stores wf hg]
    exact ih _ hrest

/-- The spans of the parts of a term, before the formulas of the parts are in a table. -/
def partSpans (u : Term) : SpanMap Formula := (∅ : SpanMap Formula).register (readings u.positions)

theorem get?_partSpans (u : Term) (f : Formula) :
    (partSpans u).get? f = (readings u.positions).lookup f := by
  rw [partSpans, SpanMap.get?_register]
  have hempty : (∅ : SpanMap Formula).get? f = none := Std.HashMap.getElem?_empty
  rw [hempty, Option.none_or]

theorem mem_entries_iff (u : Term) (f : Formula) (span : Span) :
    (f, span) ∈ (partSpans u).entries ↔ (readings u.positions).lookup f = some span := by
  rw [SpanMap.entries, Std.HashMap.mem_toList_iff_getElem?_eq_some, ← get?_partSpans]
  rfl

theorem interpret_run (u : Term) (t : Table) :
    ∃ o : Interpreter.Outcome Formula, o.toOption = u.formula? ∧
      interpret u t =
        match o, internEntries ∅ (partSpans u).entries t with
        | .ok f, (spans, t') => ((.ok (intern f t').1, spans), (intern f t').2)
        | .error es, (spans, t') => ((.error es, spans), t') := by
  obtain ⟨o, hrun, ho⟩ := interpret_eq ∅ u
  refine ⟨o, ho, ?_⟩
  have hrun' : (Formula.interpreter.interpret u).run {} = (o, partSpans u) := hrun
  rw [interpret]
  rw [hrun']
  cases o <;> rfl

/-- The formulas of the parts of a term in formula position. -/
def partFormulas (u : Term) : List Formula := (readings u.positions).map Prod.fst

theorem mem_partFormulas_iff {u : Term} {f : Formula} :
    f ∈ partFormulas u ↔ ∃ v ∈ u.positions, v.formula? = some f := by
  simp [partFormulas, mem_readings_iff]

theorem exists_lookup_iff {u : Term} {f : Formula} :
    (∃ span, (readings u.positions).lookup f = some span) ↔ f ∈ partFormulas u := by
  rw [← Option.isSome_iff_exists, List.lookup_isSome_iff]
  simp [partFormulas]

theorem mem_entries_map_fst_iff {u : Term} {f : Formula} :
    f ∈ (partSpans u).entries.map Prod.fst ↔ f ∈ partFormulas u := by
  rw [← exists_lookup_iff]
  simp [mem_entries_iff]

theorem mem_partFormulas_self {u : Term} {f : Formula} (h : u.formula? = some f) :
    f ∈ partFormulas u :=
  mem_partFormulas_iff.2 ⟨u, mem_positions_self u, h⟩

/-- Whoever asks for a formula is given the one in the table. -/
def Answers (t : Table) : Option Formula → Option Formula → Prop
  | some f, some g => t.Stores f g
  | none, none => True
  | _, _ => False

theorem Answers.keeps {f? g? : Option Formula} (h : t.Answers f? g?) (hkeeps : t.Keeps t') :
    t'.Answers f? g? := by
  cases f? with
  | none => cases g? with
    | none => exact h
    | some g => exact h.elim
  | some f => cases g? with
    | none => exact h.elim
    | some g => exact Stores.keeps h hkeeps

theorem Answers.exists_stores {f? : Option Formula} (h : t.Answers f? (some g)) :
    ∃ f, f? = some f ∧ t.Stores f g := by
  cases f? with
  | none => exact h.elim
  | some f => exact ⟨f, rfl, h⟩

theorem Answers.map_byText {f? g? : Option Formula} (h : t.Answers f? g?) :
    g?.map byText = f?.map byText := by
  cases f? with
  | none => cases g? with
    | none => rfl
    | some g => exact h.elim
  | some f => cases g? with
    | none => exact h.elim
    | some g => exact congrArg some (Stores.byText_eq h)

/-- What becomes of a term in a table. -/
structure Interprets (t : Table) (u : Term)
    (r : (Interpreter.Outcome Formula × SpanMap Formula) × Table) : Prop where
  enters : Enters t (partFormulas u) r.2
  outcome : r.2.Answers u.formula? r.1.1.toOption
  of_get? : ∀ {g : Formula} {span : Span}, r.1.2.get? g = some span →
    ∃ f, (readings u.positions).lookup f = some span ∧ r.2.Stores f g
  mem : ∀ {f g : Formula}, f ∈ partFormulas u → r.2.Stores f g → (r.1.2.get? g).isSome

theorem interpret_interprets (h : t.Sound) (u : Term) : Interprets t u (interpret u t) := by
  obtain ⟨o, ho, hrun⟩ := interpret_run u t
  obtain ⟨henters, hof, hmem⟩ := internEntries_interns h ∅ (partSpans u).entries
  generalize internEntries ∅ (partSpans u).entries t = r at hrun henters hof hmem
  obtain ⟨spans, t'⟩ := r
  have henters' : Enters t (partFormulas u) t' := by
    refine ⟨henters.adds.mono (allKeys_mono fun f hf => mem_entries_map_fst_iff.1 hf), ?_⟩
    intro f hf
    exact henters.stores f (mem_entries_map_fst_iff.2 hf)
  have hof' : ∀ {g : Formula} {span : Span}, spans.get? g = some span →
      ∃ f, (readings u.positions).lookup f = some span ∧ t'.Stores f g := by
    intro g span hg
    obtain hg | ⟨f, hf, hg⟩ := hof hg
    · have hempty : (∅ : SpanMap Formula).get? g = none := Std.HashMap.getElem?_empty
      rw [hempty] at hg
      cases hg
    · exact ⟨f, (mem_entries_iff u f span).1 hf, hg⟩
  have hmem' : ∀ {f g : Formula}, f ∈ partFormulas u → t'.Stores f g → (spans.get? g).isSome := by
    intro f g hf hg
    obtain ⟨p, hp, rfl⟩ := List.mem_map.1 (mem_entries_map_fst_iff.2 hf)
    exact hmem (.inr ⟨p, hp, hg⟩)
  cases o with
  | error es =>
    rw [hrun]
    refine ⟨henters', ?_, hof', hmem'⟩
    rw [← ho]
    trivial
  | ok f =>
    -- The term is one of its parts, so that its formula is in the table by now.
    obtain ⟨g, hg⟩ := henters'.stores f (mem_partFormulas_self ho.symm)
    have hintern := intern_of_stores henters.adds.sound.wf hg
    rw [hrun]
    simp only [hintern]
    refine ⟨henters', ?_, hof', hmem'⟩
    rw [← ho]
    exact hg

/-- A term whose parts are in a table does not change it. -/
theorem interpret_of_stores (h : t.Sound) {u : Term} (hf : u.formula? = some f)
    (hg : t.Stores f g) : ∃ spans, interpret u t = ((.ok g, spans), t) := by
  obtain ⟨o, ho, hrun⟩ := interpret_run u t
  have hparts : ∀ p ∈ (partSpans u).entries, ∃ g, t.Stores p.1 g := by
    rintro ⟨k, span⟩ hp
    have hk : k ∈ partFormulas u := mem_entries_map_fst_iff.1 (List.mem_map_of_mem hp)
    obtain ⟨v, hv, hvk⟩ := mem_partFormulas_iff.1 hk
    obtain ⟨k', hk', hv⟩ := exists_mem_preorder u hf v hv
    rw [hvk, Option.some.injEq] at hv
    exact hg.of_mem_preorder h.wf (hv ▸ hk')
  have htable := internEntries_of_stores h.wf ∅ hparts
  generalize internEntries ∅ (partSpans u).entries t = r at hrun htable
  obtain ⟨spans, t'⟩ := r
  subst htable
  rw [hf] at ho
  cases o with
  | error es => cases ho
  | ok k =>
    cases ho
    simp only [intern_of_stores h.wf hg] at hrun
    exact ⟨spans, hrun⟩

end Table

end Lasso
