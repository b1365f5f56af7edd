import Lasso.Source.Basic

/-! # Where a mistake is shown

The line of a position is the stretch of text between two line breaks on which the position lies,
and its number counts the line breaks before the position.  Marks stand beneath the part of a span
that lies on the line of its start.
-/

namespace Lasso

set_option autoImplicit false

/-- A line is a stretch of a text between line breaks, with a position on it or at its end. -/
structure Line.Encloses (l : Line) (cs : List Char) (i : Nat) : Prop where
  text : l.text = (cs.drop l.start).take l.length
  start_le : l.start ≤ i
  le_stop : i ≤ l.start + l.length
  stop_le : l.start + l.length ≤ cs.length
  unbroken : '\n' ∉ l.text
  starts : l.start = 0 ∨ cs[l.start - 1]? = some '\n'
  stops : l.start + l.length = cs.length ∨ cs[l.start + l.length]? = some '\n'
  number : l.number = 1 + (cs.take i).count '\n'

/-- The positions of a line that lie in a span. -/
def Span.onLine (span : Span) (l : Line) : List Nat :=
  (List.range' l.start l.length).filter fun i => span.start ≤ i ∧ i < span.stop

namespace Source

/-- What the scan knows on reaching an index, with the start and the number of its line. -/
structure Passed (cs : List Char) (index start number : Nat) : Prop where
  start_le : start ≤ index
  unbroken : ∀ i, start ≤ i → i < index → cs[i]? ≠ some '\n'
  starts : start = 0 ∨ cs[start - 1]? = some '\n'
  number : number = 1 + (cs.take index).count '\n'

theorem Passed.zero (cs : List Char) : Passed cs 0 0 1 where
  start_le := Nat.le_refl 0
  unbroken := fun _ _ hlt => absurd hlt (Nat.not_lt_zero _)
  starts := .inl rfl
  number := rfl

section

variable {cs : List Char} {index start number : Nat} {c : Char}

theorem count_take_succ (hc : cs[index]? = some c) :
    (cs.take (index + 1)).count '\n' =
      (cs.take index).count '\n' + if c = '\n' then 1 else 0 := by
  rw [List.take_add_one, hc, Option.toList_some, List.count_append, List.count_singleton]
  simp only [beq_iff_eq]

theorem Passed.newline (h : Passed cs index start number) (hc : cs[index]? = some '\n') :
    Passed cs (index + 1) (index + 1) (number + 1) where
  start_le := Nat.le_refl _
  unbroken := by
    intro i hle hlt
    omega
  starts := .inr hc
  number := by
    rw [count_take_succ hc, if_pos rfl, h.number, Nat.add_assoc]

theorem Passed.other (h : Passed cs index start number) (hc : cs[index]? = some c)
    (hne : c ≠ '\n') : Passed cs (index + 1) start number where
  start_le := Nat.le_succ_of_le h.start_le
  unbroken := by
    intro i hle hlt
    rcases Nat.lt_succ_iff_lt_or_eq.1 hlt with hbefore | rfl
    · exact h.unbroken i hle hbefore
    · rw [hc]
      exact fun heq => hne (Option.some.inj heq)
  starts := h.starts
  number := by
    rw [count_take_succ hc, if_neg hne, Nat.add_zero]
    exact h.number

end

/-- A line ends at the first line break from an index on. -/
structure EndsLine (cs : List Char) (index stop : Nat) : Prop where
  le_stop : index ≤ stop
  stop_le : stop ≤ cs.length
  unbroken : ∀ i, index ≤ i → i < stop → cs[i]? ≠ some '\n'
  stops : stop = cs.length ∨ cs[stop]? = some '\n'

theorem getElem?_of_drop {cs rest : List Char} {index : Nat} {c : Char}
    (hrest : cs.drop index = c :: rest) : cs[index]? = some c ∧ cs.drop (index + 1) = rest := by
  constructor
  · rw [← List.head?_drop, hrest]
    rfl
  · rw [← List.tail_drop, hrest]
    rfl

theorem endOfLine_ends (cs : List Char) (index : Nat) (hindex : index ≤ cs.length) :
    EndsLine cs index (endOfLine index (cs.drop index)) := by
  generalize hrest : cs.drop index = rest
  induction rest generalizing index with
  | nil =>
    have hlength : index = cs.length := Nat.le_antisymm hindex (List.drop_eq_nil_iff.1 hrest)
    exact ⟨Nat.le_refl _, hindex, fun i hle hlt => absurd hle (Nat.not_le.2 hlt), .inl hlength⟩
  | cons c rest ih =>
    obtain ⟨hc, hdrop⟩ := getElem?_of_drop hrest
    obtain ⟨hlt, -⟩ := List.getElem?_eq_some_iff.1 hc
    rw [endOfLine]
    split
    next hbreak =>
      exact ⟨Nat.le_refl _, hindex, fun i hle hlt => absurd hle (Nat.not_le.2 hlt),
        .inr (hbreak ▸ hc)⟩
    next hbreak =>
      obtain ⟨hle, hstop, hunbroken, hstops⟩ := ih (index + 1) hlt hdrop
      refine ⟨Nat.le_of_succ_le hle, hstop, ?_, hstops⟩
      intro i hfrom hto
      rcases Nat.eq_or_lt_of_le hfrom with rfl | hafter
      · rw [hc]
        exact fun heq => hbreak (Option.some.inj heq)
      · exact hunbroken i hafter hto

/-- What the scan has passed and the end of the line make up the line. -/
theorem Passed.encloses {cs : List Char} {index start number stop : Nat}
    (h : Passed cs index start number) (hend : EndsLine cs index stop) :
    (Line.cut cs start stop number).Encloses cs index := by
  have hlength : (Line.cut cs start stop number).length = stop - start := by
    have := hend.stop_le
    rw [Line.length, Line.cut, List.length_take, List.length_drop]
    omega
  have hstart := h.start_le
  have hindex := hend.le_stop
  have hstop : start + (stop - start) = stop := by omega
  refine ⟨?_, hstart, ?_, ?_, ?_, h.starts, ?_, h.number⟩
  · rw [hlength]
    rfl
  · rwa [hlength, Line.cut, hstop]
  · rw [hlength, Line.cut, hstop]
    exact hend.stop_le
  · intro hmem
    obtain ⟨j, hj⟩ := List.mem_iff_getElem?.1 hmem
    rw [Line.cut, List.getElem?_take, List.getElem?_drop] at hj
    split at hj
    · rcases Nat.lt_or_ge (start + j) index with hbefore | hafter
      · exact h.unbroken (start + j) (Nat.le_add_right _ _) hbefore hj
      · exact hend.unbroken (start + j) hafter (by omega) hj
    · cases hj
  · rw [hlength, Line.cut, hstop]
    exact hend.stops

/-- From an index at or before a position inside the text, the scan finds the line of the
position. -/
theorem scanLine_encloses {cs : List Char} {position index start number : Nat}
    (hposition : position ≤ cs.length) (hindex : index ≤ position)
    (h : Passed cs index start number) :
    (scanLine cs position index start number (cs.drop index)).Encloses cs position := by
  generalize hrest : cs.drop index = rest
  induction rest generalizing index start number with
  | nil =>
    have hlength : cs.length ≤ index := List.drop_eq_nil_iff.1 hrest
    obtain rfl : index = position := by omega
    exact h.encloses ⟨by omega, Nat.le_refl _, fun i hle hlt => by omega, .inl rfl⟩
  | cons c rest ih =>
    obtain ⟨hc, hdrop⟩ := getElem?_of_drop hrest
    rw [scanLine]
    split
    next hhere =>
      obtain rfl : index = position := by exact_mod_cast hhere
      rw [← hrest]
      exact h.encloses (endOfLine_ends cs index hposition)
    next hbefore =>
      have hlt : index + 1 ≤ position := by omega
      split
      next hbreak => exact ih hlt (h.newline (hbreak ▸ hc)) hdrop
      next hbreak => exact ih hlt (h.other hc hbreak) hdrop

theorem lineAt_encloses (s : Source) {i : Nat} (hi : i ≤ s.text.length) :
    (s.lineAt i).Encloses s.text i :=
  scanLine_encloses hi (Nat.zero_le i) (Passed.zero s.text)

theorem distance_eq_sub {first last : Int} (hle : first ≤ last) (hfirst : 0 ≤ first)
    (hlast : last < 9223372036854775808) : distance first last = last - first := by
  rw [distance, Int.bmod_eq_of_le] <;> omega

theorem length_filter_range' {first : Nat} {lo hi : Int} (hlo : (first : Int) ≤ lo) (n : Nat) :
    ((List.range' first n).filter fun i : Nat => lo ≤ i ∧ i < hi).length =
      (min hi (first + n) - lo).toNat := by
  induction n with
  | zero =>
    simp only [List.range'_zero, List.filter_nil, List.length_nil]
    omega
  | succ n ih =>
    rw [List.range'_1_concat, List.filter_append, List.length_append, ih]
    by_cases hin : lo ≤ ((first + n : Nat) : Int) ∧ ((first + n : Nat) : Int) < hi
    · rw [List.filter_cons_of_pos (by simpa using hin), List.filter_nil, List.length_singleton]
      omega
    · rw [List.filter_cons_of_neg (by simpa using hin), List.filter_nil, List.length_nil]
      omega

section

variable {span : Span} {l : Line} (hstart : (l.start : Int) ≤ span.start)
  (hspan : span.start ≤ span.stop) (hword : span.stop < 9223372036854775808)

include hstart hspan hword

theorem indent_eq : indent span l = span.start.toNat - l.start := by
  rw [indent, distance_eq_sub hstart (Int.natCast_nonneg _) (by omega)]
  omega

theorem marks_eq : marks span l = max 1 (span.onLine l).length := by
  have hlength : span.length = span.stop - span.start :=
    distance_eq_sub hspan (by omega) hword
  rw [marks, indent_eq hstart hspan hword, hlength, Span.onLine, length_filter_range' hstart]
  omega

end

/-- A mistake is shown on the line of its start: beneath the line, blanks up to the start and a mark
for each position of the span on the line, or a single mark if there is none. -/
theorem render_marks_span (s : Source) (e : SyntaxError) (hstart : 0 ≤ e.span.start)
    (hinside : e.span.start ≤ s.text.length) (hspan : e.span.start ≤ e.span.stop)
    (hword : e.span.stop < 9223372036854775808) :
    let l := s.lineAt e.span.start
    l.Encloses s.text e.span.start.toNat ∧
      s.render e = s.name ++ ":" ++ toString l.number ++ ": " ++ e.message ++ "\n" ++
        String.ofList l.text ++ "\n" ++
        String.ofList (List.replicate (e.span.start.toNat - l.start) ' ') ++
        String.ofList (List.replicate (max 1 (e.span.onLine l).length) '^') ++ "\n" := by
  intro l
  have hencloses : l.Encloses s.text e.span.start.toNat := by
    have hline := s.lineAt_encloses (i := e.span.start.toNat) (by omega)
    rwa [Int.toNat_of_nonneg hstart] at hline
  have hfrom : (l.start : Int) ≤ e.span.start := by
    have := hencloses.start_le
    omega
  constructor
  · exact hencloses
  · rw [render, indent_eq hfrom hspan hword, marks_eq hfrom hspan hword]
    rfl

/-- A span from the line break at the end of the second line into the third. -/
theorem render_marks_span_break :
    let s := Source.ofString "m" "a\nbc\nd"
    let e : SyntaxError := ⟨⟨4, 6⟩, "no"⟩
    (0 ≤ e.span.start ∧ e.span.start ≤ s.text.length ∧ e.span.start ≤ e.span.stop ∧
      e.span.stop < 9223372036854775808) ∧
    (s.lineAt e.span.start).Encloses s.text 4 ∧ s.render e = "m:2: no\nbc\n  ^\n" := by
  intro s e
  have hbounds : 0 ≤ e.span.start ∧ e.span.start ≤ s.text.length ∧ e.span.start ≤ e.span.stop ∧
      e.span.stop < 9223372036854775808 := by decide
  obtain ⟨hstart, hinside, hspan, hword⟩ := hbounds
  obtain ⟨hline, hrender⟩ := s.render_marks_span e hstart hinside hspan hword
  refine ⟨⟨hstart, hinside, hspan, hword⟩, hline, hrender.trans ?_⟩
  decide

end Source

end Lasso
