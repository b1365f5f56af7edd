import Lasso.Proofs.SExpr.Identity
import Lasso.Proofs.SExpr.Occurrence

/-! # The extent of terms

A term reaches from its first token to its last.  So the items of a list lie strictly inside of it,
one after the other, and the part of the text that a term covers reads as that term.  In a map of
spans every term has an entry of its own, since identities are given in the order in which terms
end, and there are no other entries.
-/

namespace Lasso

set_option autoImplicit false

def Span.Inside (inner outer : Span) : Prop := outer.start < inner.start ∧ inner.stop < outer.stop

def Span.Before (first second : Span) : Prop := first.stop ≤ second.start

namespace SExpr

open Token

variable {α β : Type}

mutual

/-- The notes in the order in which the nodes end. -/
def notes : SExpr α → List α
  | .symbol n _ => [n]
  | .list n items => itemNotes items ++ [n]

def itemNotes : List (SExpr α) → List α
  | [] => []
  | e :: es => e.notes ++ itemNotes es

end

theorem itemNotes_append (es fs : List (SExpr α)) :
    itemNotes (es ++ fs) = itemNotes es ++ itemNotes fs := by
  induction es with
  | nil => rfl
  | cons e es ih => rw [List.cons_append, itemNotes, ih, itemNotes, List.append_assoc]

theorem itemNotes_concat (es : List (SExpr α)) (e : SExpr α) :
    itemNotes (es ++ [e]) = itemNotes es ++ e.notes := by
  rw [itemNotes_append, itemNotes, itemNotes, List.append_nil]

mutual

theorem notes_map (f : α → β) : (e : SExpr α) → (e.map f).notes = e.notes.map f
  | .symbol _ _ => rfl
  | .list _ items => by
    rw [map, notes, notes, itemNotes_mapItems f items, List.map_append]
    rfl

theorem itemNotes_mapItems (f : α → β) : (es : List (SExpr α)) →
    itemNotes (mapItems f es) = (itemNotes es).map f
  | [] => rfl
  | e :: es => by
    rw [mapItems, itemNotes, itemNotes, notes_map f e, itemNotes_mapItems f es, List.map_append]

end

theorem before_of_itemTokens {ts : List (SExpr Span)} (hplaced : ItemsPlaced ts)
    (hordered : (itemTokens ts).Pairwise fun a b => a.stop ≤ b.start) :
    ts.Pairwise fun t u => t.note.Before u.note := by
  rw [itemTokens_eq_flatMap, List.pairwise_flatMap] at hordered
  refine hordered.2.imp_of_mem fun {t u} ht hu htu => ?_
  obtain ⟨_, last, hnote, -, hlast⟩ := (itemsPlaced_iff.1 hplaced t ht).exists_ends
  obtain ⟨first, _, hnote', hfirst, -⟩ := (itemsPlaced_iff.1 hplaced u hu).exists_ends
  have hle := htu last (List.mem_of_getLast? hlast) first (List.mem_of_head? hfirst)
  rw [hnote, hnote', Span.Before]
  exact Int.ofNat_le.2 hle

theorem inside_of_tokens {span : Span} {items : List (SExpr Span)}
    (hplaced : (SExpr.list span items).Placed)
    (hordered : (SExpr.list span items).tokens.Pairwise fun a b => a.stop ≤ b.start) :
    ∀ t ∈ items, t.note.Inside span := by
  intro t ht
  obtain ⟨⟨p, q, rfl⟩, hitems⟩ := hplaced
  obtain ⟨first, last, hnote, hfirst, hlast⟩ := (itemsPlaced_iff.1 hitems t ht).exists_ends
  have hmem : ∀ u ∈ t.tokens, u ∈ itemTokens items := (tokens_infix_itemTokens ht).subset
  rw [tokens, List.pairwise_cons, List.pairwise_append] at hordered
  obtain ⟨hopening, -, -, hclosing⟩ := hordered
  have hstart := hopening first (List.mem_append_left _ (hmem _ (List.mem_of_head? hfirst)))
  have hstop := hclosing last (hmem _ (List.mem_of_getLast? hlast)) _ (List.mem_singleton_self _)
  have hstart' : p + 1 ≤ first.start := hstart
  have hstop' : last.stop ≤ q := by simpa [start] using hstop
  rw [hnote]
  constructor
  · exact Int.ofNat_lt.2 hstart'
  · exact Int.lt_add_one_of_le (Int.ofNat_le.2 hstop')

theorem Occurs.tokens_ordered {s : Source} {ts : List Term} (hts : s.terms = .ok ts) {t : Term}
    (h : Occurs ts t) : t.tokens.Pairwise fun a b => a.stop ≤ b.start := by
  have hreads := s.terms_reads
  rw [hts] at hreads
  have hsublist := h.tokens_infix.sublist
  rw [hreads.1] at hsublist
  exact (pairwise_ofText s.text).sublist hsublist

end SExpr

open SExpr

theorem SpanMap.map_itemNotes {m : SpanMap Nat} {xs : List (SExpr Nat)} {ts : List Term}
    (h : List.Forall₂ m.Places xs ts) : (itemNotes xs).map m.get? = (itemNotes ts).map some := by
  rw [← itemNotes_mapItems, SpanMap.mapItems_eq_iff.2 h, itemNotes_mapItems]

namespace Checked

/-- The identities of the terms in lists that are still open, innermost list first. -/
def openNotes : List Open → List Nat
  | [] => []
  | o :: stack => openNotes stack ++ itemNotes o.items.reverse

theorem openNotes_push (o : Open) (x : SExpr Nat) (stack : List Open) :
    openNotes (o.push x :: stack) = openNotes (o :: stack) ++ x.notes := by
  rw [openNotes, openNotes, Open.push, List.reverse_cons, itemNotes_concat, List.append_assoc]

theorem eq_of_register {make : Nat → SExpr Nat} {start stop : Nat} {r r' : Registry}
    {x : SExpr Nat} (h : register make start stop r = .ok (x, r')) :
    x = make r.made ∧ r'.made = r.made + 1 := by
  rw [register] at h
  split at h
  · cases h
  split at h
  · cases h
  · cases h
    exact ⟨rfl, rfl⟩

/-- Identities are given one after the other.  Those in `before` belong to terms that were read
already. -/
theorem notes_of_readOne {size : Nat} {stack : List Open} {ts : List Token} {r r' : Registry}
    {x : SExpr Nat} {rest : List Token} (h : readOne size stack ts r = .ok (.ok (x, rest), r'))
    {before : List Nat} (hstack : before ++ openNotes stack = List.range r.made) :
    before ++ x.notes = List.range r'.made := by
  fun_induction readOne size stack ts generalizing r with
  | case1 =>
    obtain ⟨e, -, h⟩ := eq_ok_of_bind h
    cases h
  | case2 stack p ts ih =>
    refine ih h ?_
    rw [openNotes, List.reverse_nil, itemNotes, List.append_nil, hstack]
  | case3 =>
    obtain ⟨e, -, h⟩ := eq_ok_of_bind h
    cases h
  | case4 o p ts =>
    obtain ⟨⟨y, r₁⟩, hy, h⟩ := eq_ok_of_bind h
    cases h
    obtain ⟨rfl, hmade⟩ := eq_of_register hy
    rw [hmade, List.range_succ, ← hstack, openNotes, openNotes, notes, List.nil_append,
      List.append_assoc]
  | case5 o outer stack p ts ih =>
    obtain ⟨⟨y, r₁⟩, hy, h⟩ := eq_ok_of_bind h
    obtain ⟨rfl, hmade⟩ := eq_of_register hy
    refine ih _ h ?_
    rw [openNotes_push, notes, hmade, List.range_succ, ← hstack]
    simp only [openNotes, List.append_assoc]
  | case6 p letters ts =>
    obtain ⟨⟨y, r₁⟩, hy, h⟩ := eq_ok_of_bind h
    cases h
    obtain ⟨rfl, hmade⟩ := eq_of_register hy
    rw [hmade, List.range_succ, ← hstack, openNotes, notes, List.append_nil]
  | case7 o stack p letters ts ih =>
    obtain ⟨⟨y, r₁⟩, hy, h⟩ := eq_ok_of_bind h
    obtain ⟨rfl, hmade⟩ := eq_of_register hy
    refine ih _ h ?_
    rw [openNotes_push, notes, hmade, List.range_succ, ← hstack, List.append_assoc]

theorem notes_of_readMany {size : Nat} {ts : List Token} {r r' : Registry} {xs : List (SExpr Nat)}
    (h : readMany size ts r = .ok (.ok xs, r')) :
    List.range r.made ++ itemNotes xs = List.range r'.made := by
  generalize hn : ts.length = n
  induction n using Nat.strongRecOn generalizing ts r xs with
  | _ n ih =>
    cases ts with
    | nil =>
      rw [readMany] at h
      cases h
      exact List.append_nil _
    | cons t ts =>
      rw [readMany_cons] at h
      obtain ⟨⟨out, r₁⟩, hone, h⟩ := eq_ok_of_bind h
      cases out with
      | error e => cases h
      | ok result =>
        obtain ⟨x, rest⟩ := result
        obtain ⟨⟨outs, r₂⟩, hmany, h⟩ := eq_ok_of_bind h
        cases outs with
        | error e => cases h
        | ok ys =>
          cases h
          have hlt := length_lt_of_readOne hone
          have hfirst := notes_of_readOne hone (List.append_nil (List.range r.made))
          rw [itemNotes, ← List.append_assoc, hfirst]
          exact ih rest.length (hn ▸ hlt) hmany rfl

end Checked

namespace Source

/-- A text that is read gives every term, at whatever depth, an entry of its own in the map of
spans, and there are no others.  The part of the text within the span reads as the term, the items
of a list lie strictly inside of it, and terms that follow each other are disjoint. -/
theorem spans_delimit {s : Source} {ts : List Term} (hts : s.terms = .ok ts) :
    (∃ xs r, Checked.readMany s.text.length (Token.ofText s.text) {} = .ok (.ok xs, r) ∧
      List.Forall₂ r.spans.Places xs ts ∧ (itemNotes xs).Nodup ∧
      ∀ n, n ∈ itemNotes xs ↔ ∃ span, r.spans.get? n = some span) ∧
    (∀ t, Occurs ts t →
      (0 ≤ t.note.start ∧ t.note.start < t.note.stop ∧ t.note.stop ≤ s.text.length) ∧
      ∀ name, ∃ u, (Source.mk name (t.note.slice s.text)).term = .ok u ∧ u.erase = t.erase) ∧
    (∀ span items, Occurs ts (.list span items) →
      (∀ t ∈ items, t.note.Inside span) ∧ items.Pairwise fun t u => t.note.Before u.note) ∧
    ts.Pairwise fun t u => t.note.Before u.note := by
  have hreads := s.terms_reads
  rw [hts] at hreads
  obtain ⟨htokens, hplaced⟩ := hreads
  refine ⟨?_, ?_, ?_, ?_⟩
  -- identities are the numbers below the count of terms made, and the map knows no others
  · obtain ⟨out, r, hrun, hfresh, -, hout⟩ := Checked.readMany_safe s.text.length
      (Token.pairwise_ofText s.text) Registry.fresh_empty
    change Checked.OutcomeFor _ out s.terms at hout
    rw [hts] at hout
    obtain ⟨xs, rfl, hxs⟩ := Checked.outcomeFor_ok_iff.1 hout
    have hnotes : itemNotes xs = List.range r.made := Checked.notes_of_readMany hrun
    refine ⟨xs, r, hrun, hxs, hnotes ▸ List.nodup_range, fun n => ?_⟩
    constructor
    · intro hn
      have hmem := List.mem_map_of_mem (f := r.spans.get?) hn
      rw [SpanMap.map_itemNotes hxs, List.mem_map] at hmem
      obtain ⟨span, -, hspan⟩ := hmem
      exact ⟨span, hspan.symm⟩
    · rintro ⟨span, hspan⟩
      rw [hnotes, List.mem_range]
      by_contra hge
      rw [hfresh n (Nat.not_lt.1 hge)] at hspan
      cases hspan
  · intro t ht
    have hinfix := ht.tokens_infix
    rw [htokens] at hinfix
    exact ⟨ht.span_within hts, Source.exists_term_slice (ht.placed hplaced) hinfix⟩
  · intro span items hlist
    have hordered := hlist.tokens_ordered hts
    have hitems := hlist.placed hplaced
    refine ⟨inside_of_tokens hitems hordered, before_of_itemTokens hitems.2 ?_⟩
    rw [tokens, List.pairwise_cons, List.pairwise_append] at hordered
    exact hordered.2.1
  · refine before_of_itemTokens hplaced ?_
    rw [htokens]
    exact Token.pairwise_ofText s.text

/-- A list across a comment, which ends in the middle of the second line. -/
theorem spans_delimit_comment :
    let s := Source.ofString "comment" "(a ;)\n (b c)) d"
    let b : Term := .list ⟨7, 12⟩ [.symbol ⟨8, 9⟩ "b", .symbol ⟨10, 11⟩ "c"]
    let a : Term := .list ⟨0, 13⟩ [.symbol ⟨1, 2⟩ "a", b]
    s.terms = .ok [a, .symbol ⟨14, 15⟩ "d"] ∧ b.note.Inside a.note ∧
      ∀ name, ∃ u, (Source.mk name (a.note.slice s.text)).term = .ok u ∧ u.erase = a.erase := by
  intro s b a
  have hterms : s.terms = .ok [a, .symbol ⟨14, 15⟩ "d"] := by cbv
  obtain ⟨-, hslice, hinside, -⟩ := spans_delimit hterms
  have ha : Occurs [a, .symbol ⟨14, 15⟩ "d"] a := .top List.mem_cons_self
  exact ⟨hterms, (hinside _ _ ha).1 b (by simp), (hslice a ha).2⟩

end Source

end Lasso
