import Mathlib.Data.List.Infix
import Lasso.Proofs.SExpr.Slice

/-! # Occurrences of terms

A term occurs in a text if it is one of its terms or an item of a list that occurs.  Wherever it
occurs, its span lies within the text, and if it is a symbol its name is a word.
-/

namespace Lasso

set_option autoImplicit false

namespace SExpr

/-- A term is one of some terms, or an item of a list that occurs among them. -/
inductive Occurs {α : Type} (ts : List (SExpr α)) : SExpr α → Prop
  | top {t : SExpr α} (h : t ∈ ts) : Occurs ts t
  | item {note : α} {items : List (SExpr α)} {t : SExpr α} (h : Occurs ts (.list note items))
      (ht : t ∈ items) : Occurs ts t

open Token

theorem tokens_infix_itemTokens {ts : List (SExpr Span)} {t : SExpr Span} (h : t ∈ ts) :
    t.tokens <:+: itemTokens ts := by
  obtain ⟨us, vs, rfl⟩ := List.append_of_mem h
  exact ⟨itemTokens us, itemTokens vs, by simp [itemTokens]⟩

variable {ts : List (SExpr Span)} {t : SExpr Span}

theorem Occurs.tokens_infix (h : Occurs ts t) : t.tokens <:+: itemTokens ts := by
  induction h with
  | top h => exact tokens_infix_itemTokens h
  | @item note items t _ ht ih =>
    have hlist : itemTokens items <:+: (SExpr.list note items).tokens :=
      ⟨[.opening note.start.toNat], [.closing (note.stop - 1).toNat], by simp [tokens]⟩
    exact (tokens_infix_itemTokens ht).trans (hlist.trans ih)

theorem Occurs.placed (hts : ItemsPlaced ts) (h : Occurs ts t) : t.Placed := by
  induction h with
  | top h => exact itemsPlaced_iff.1 hts _ h
  | item _ ht ih => exact itemsPlaced_iff.1 ih.2 _ ht

section

variable {s : Source} (hts : s.terms = .ok ts) (h : Occurs ts t)

include hts h

theorem Occurs.stands {u : Token} (hu : u ∈ t.tokens) : Stands s.text u := by
  have hreads := s.terms_reads
  rw [hts] at hreads
  rw [← mem_ofText_iff, ← hreads.1]
  exact h.tokens_infix.subset hu

/-- A term covers at least one character of the text and none outside of it. -/
theorem Occurs.span_within :
    0 ≤ t.note.start ∧ t.note.start < t.note.stop ∧ t.note.stop ≤ s.text.length := by
  have hreads := s.terms_reads
  rw [hts] at hreads
  obtain ⟨first, last, hnote, hfirst, hlast⟩ := (h.placed hreads.2).exists_ends
  have hstands := h.stands hts (List.mem_of_mem_head? hfirst)
  have hstands' := h.stands hts (List.mem_of_getLast? hlast)
  have hlt := hstands.start_lt_stop
  have hlt' := hstands'.start_lt_stop
  have hle := hstands'.stop_le
  -- the last token is the first or lies after it
  have hends : last = first ∨ first.stop ≤ last.start := by
    have hordered := (hreads.1 ▸ pairwise_ofText s.text).sublist h.tokens_infix.sublist
    obtain ⟨rest, hrest⟩ := List.head?_eq_some_iff.1 hfirst
    rw [hrest] at hordered hlast
    rcases List.mem_cons.1 (List.mem_of_getLast? hlast) with rfl | hmem
    · exact .inl rfl
    · exact .inr (List.rel_of_pairwise_cons hordered hmem)
  rw [hnote]
  refine ⟨by simp, ?_, by simpa using hle⟩
  rcases hends with rfl | hafter
  · simpa using hlt
  · simp only
    omega

end

theorem Occurs.word {s : Source} (hts : s.terms = .ok ts) {span : Span} {name : String}
    (h : Occurs ts (.symbol span name)) : name ≠ "" ∧ ∀ c ∈ name.toList, isWordChar c = true := by
  obtain ⟨w, v, -, -, -, hne, hletters, -⟩ := h.stands hts (u := .word span.start.toNat name.toList)
    (by simp [tokens])
  refine ⟨?_, hletters⟩
  rintro rfl
  exact hne rfl

end SExpr

end Lasso
