import Lasso.Proofs.Formula.Calls
import Lasso.Proofs.Formula.Printing

/-! # Reading formulas again

The text of a formula that was read is read as that formula, and so is the part of a text where a
formula was found.  Neither changes the table.
-/

namespace Lasso

set_option autoImplicit false

namespace Table

open Formula SExpr

variable {t : Table}

theorem Run.sound {es : List Event} (h : Run es t) : t.Sound := ⟨_, h.records.1⟩

theorem readText_of_stores (h : t.Sound) {text : List Char} {u : Term} {f g : Formula}
    (hu : (standalone text).term = .ok u) (hf : u.formula? = some f) (hg : t.Stores f g) :
    readText text t = (.ok g, t) := by
  obtain ⟨spans, hrun⟩ := interpret_of_stores h hf hg
  have hread : read (standalone text) t = (.ok g, t) := by
    simp only [read, readSpans, hu, bind, StateT.bind, hrun]
    rfl
  simp only [readText, bind, StateT.bind, hread]
  rfl

theorem readText_text (h : t.Sound) {f g : Formula} (hf : f.Readable) (hg : t.Stores f g) :
    readText g.text.toList t = (.ok g, t) := by
  obtain ⟨u, hu, herase⟩ := exists_term_text hf.isPlain_sexpr "<formula>"
  have htext : f.sexpr.text = g.text := by
    rw [text_sexpr, ← text_byText f, ← hg.byText_eq, text_byText]
  have hformula : u.formula? = some f := by
    rw [← formula?_map (fun _ => ()) u, ← hf.formula?_sexpr, ← herase]
    rfl
  rw [htext] at hu
  exact readText_of_stores h hu hformula hg

/-- The part of a text where a formula stands is read as that formula. -/
theorem readText_slice (h : t.Sound) {s : Source} {root u : Term} (hroot : s.term = .ok root)
    (hu : u ∈ root.positions) {f g : Formula} (hf : u.formula? = some f) (hg : t.Stores f g) :
    readText (u.note.slice s.text) t = (.ok g, t) := by
  obtain ⟨htokens, hplaced⟩ := Source.tokens_of_term hroot
  obtain ⟨huplaced, hpart⟩ := placed_of_mem_positions root hplaced u hu
  rw [htokens] at hpart
  obtain ⟨v, hv, herase⟩ := Source.exists_term_slice huplaced hpart "<formula>"
  have hformula : v.formula? = some f := by
    rw [← formula?_map (fun _ => ()) v, ← hf, ← formula?_map (fun _ => ()) u]
    exact congrArg SExpr.formula? herase
  exact readText_of_stores h hv hformula hg

theorem Stores.eq_of_readable {f f' g : Formula} (hf : f.Readable) (hf' : f'.Readable)
    (h : t.Stores f g) (h' : t.Stores f' g) : f = f' := by
  apply hf.eq_of_text_eq hf'
  rw [← text_byText f, ← text_byText f', ← h.byText_eq, h'.byText_eq]

def Gives (t : Table) (u : Term) (g : Formula) : Prop := (interpret u t).1.1 = .ok g

theorem gives_iff (h : t.Sound) {u : Term} {f g g' : Formula} (hf : u.formula? = some f)
    (hg : t.Stores f g) : t.Gives u g' ↔ g = g' := by
  obtain ⟨spans, hrun⟩ := interpret_of_stores h hf hg
  simp [Gives, hrun]

/-- The formula of a text is read again from its own text, and each formula found in the text from
where it stands, which is the leftmost place that gives it.  The table stays as it is. -/
theorem Run.reads_again {es : List Event} (h : Run es t) {s : Source} {f : Formula}
    {spans : SpanMap Formula} {t' : Table} (hread : readSpans s t = ((.ok f, spans), t')) :
    readText f.text.toList t' = (.ok f, t') ∧
      ∃ root, s.term = .ok root ∧ t'.Gives root f ∧
        (∀ u ∈ root.positions, ∃ g, t'.Gives u g ∧ (spans.get? g).isSome) ∧
        ∀ g span, spans.get? g = some span →
          readText (span.slice s.text) t' = (.ok g, t') ∧
            (∃ u ∈ root.positions, u.note = span ∧ t'.Gives u g) ∧
            ∀ u ∈ root.positions, t'.Gives u g → u.note = span ∨ span.stop ≤ u.note.start := by
  rw [readSpans] at hread
  cases hroot : s.term with
  | error e =>
    rw [hroot] at hread
    cases hread
  | ok root =>
    rw [hroot] at hread
    obtain ⟨henters, houtcome, hof, hmem⟩ := interpret_interprets h.sound root
    rw [show interpret root t = _ from hread] at henters houtcome hof hmem
    have hsound := henters.adds.sound
    obtain ⟨f₀, hf₀, hf⟩ := houtcome.exists_stores
    have hreadable : f₀.Readable := readable_of_formula? root (Source.isPlain_of_term hroot) hf₀
    -- A part has a formula, which is in the table since the formula of the whole is.
    have hparts : ∀ u ∈ root.positions, ∃ k g,
        k.Readable ∧ u.formula? = some k ∧ t'.Stores k g := by
      intro u hu
      obtain ⟨k, hk, huk⟩ := exists_mem_preorder root hf₀ u hu
      obtain ⟨g, hg⟩ := hf.of_mem_preorder hsound.wf hk
      exact ⟨k, g, hreadable.of_mem_preorder hk, huk, hg⟩
    refine ⟨readText_text hsound hreadable hf, root, rfl, (gives_iff hsound hf₀ hf).2 rfl, ?_, ?_⟩
    · intro u hu
      obtain ⟨k, g, -, huk, hg⟩ := hparts u hu
      exact ⟨g, (gives_iff hsound huk hg).2 rfl, hmem (mem_partFormulas_iff.2 ⟨u, hu, huk⟩) hg⟩
    · intro g span hspan
      obtain ⟨k, hk, hg⟩ := hof hspan
      obtain ⟨htokens, hplaced⟩ := Source.tokens_of_term hroot
      have hordered : Ordered root.tokens := htokens ▸ Token.pairwise_ofText s.text
      obtain ⟨⟨u, hu, huk, rfl⟩, hleft⟩ :=
        exists_leftmost (pairwise_positions root hplaced hordered) hk
      refine ⟨readText_slice hsound hroot hu huk hg,
        ⟨u, hu, rfl, (gives_iff hsound huk hg).2 rfl⟩, ?_⟩
      intro v hv hvg
      obtain ⟨k', g', hk', hvk', hg'⟩ := hparts v hv
      obtain rfl := (gives_iff hsound hvk' hg').1 hvg
      obtain ⟨k'', g'', hk'', huk'', hg''⟩ := hparts u hu
      rw [huk] at huk''
      cases huk''
      obtain rfl := hg'.eq_of_readable hk' hk'' hg
      exact hleft v hv hvk'

/-- A text that stands for a formula is read as the one in the table. -/
theorem exists_readSpans (h : t.Sound) {s : Source} {root : Term} (hroot : s.term = .ok root)
    {f : Formula} (hf : root.formula? = some f) :
    ∃ g spans t', readSpans s t = ((.ok g, spans), t') ∧ t'.Stores f g := by
  obtain ⟨-, houtcome, -, -⟩ := interpret_interprets h root
  have hread : readSpans s t = interpret root t := by rw [readSpans, hroot]
  rw [hread]
  generalize interpret root t = r at houtcome
  obtain ⟨⟨o, spans⟩, t'⟩ := r
  rw [hf] at houtcome
  cases o with
  | error es => exact houtcome.elim
  | ok g => exact ⟨g, spans, t', rfl, houtcome⟩

/-- A conjunction of three is printed as one of two. -/
theorem Run.reads_again_conjunction : ∃ f spans t',
    readSpans (Source.ofString "conjunction" "(& p q p)") ∅ = ((.ok f, spans), t') ∧
      f.text = "(and (and p q) p)" ∧ readText "(and (and p q) p)".toList t' = (.ok f, t') := by
  have hroot : (Source.ofString "conjunction" "(& p q p)").term = .ok (.list ⟨0, 9⟩
      [.symbol ⟨1, 2⟩ "&", .symbol ⟨3, 4⟩ "p", .symbol ⟨5, 6⟩ "q", .symbol ⟨7, 8⟩ "p"]) := by cbv
  obtain ⟨f, spans, t', hread, hf⟩ := exists_readSpans ⟨∅, records_empty⟩ hroot rfl
  have htext : f.text = "(and (and p q) p)" := by
    rw [← text_byText, hf.byText_eq, text_byText]
    rfl
  refine ⟨f, spans, t', hread, htext, ?_⟩
  rw [← htext]
  exact (Run.start.reads_again hread).1

end Table

end Lasso
