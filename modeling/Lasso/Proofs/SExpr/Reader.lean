import Lasso.SExpr.Reader
import Lasso.Proofs.SExpr.Token

/-! # What is read from a text

The terms of a text give back its tokens, and a text has terms exactly if its parentheses match.
Otherwise the mistake is at the first closing parenthesis without a partner, or at the end of the
text if a list is left open.
-/

namespace Lasso

set_option autoImplicit false

namespace Token

def isOpening : Token → Bool
  | .opening _ => true
  | _ => false

def isClosing : Token → Bool
  | .closing _ => true
  | _ => false

def openings (ts : List Token) : Nat := ts.countP isOpening

def closings (ts : List Token) : Nat := ts.countP isClosing

/-- No closing parenthesis lacks its partner. -/
def Matched (ts : List Token) : Prop := ∀ us, us <+: ts → closings us ≤ openings us

def Balanced (ts : List Token) : Prop := Matched ts ∧ closings ts = openings ts

/-- The number of lists that are open after some tokens, if no closing parenthesis lacks its
partner. -/
def nesting : Nat → List Token → Option Nat
  | n, [] => some n
  | n, .opening _ :: ts => nesting (n + 1) ts
  | 0, .closing _ :: _ => none
  | n + 1, .closing _ :: ts => nesting n ts
  | n, .word _ _ :: ts => nesting n ts

theorem nesting_append (n : Nat) (ts us : List Token) :
    nesting n (ts ++ us) = (nesting n ts).bind fun m => nesting m us := by
  fun_induction nesting n ts <;> simp_all [nesting]

theorem forall_prefix_cons_iff {t : Token} {ts : List Token} {p : List Token → Prop} :
    (∀ us, us <+: t :: ts → p us) ↔ p [] ∧ ∀ us, us <+: ts → p (t :: us) := by
  constructor
  · intro h
    exact ⟨h [] List.nil_prefix, fun us hus => h (t :: us) (List.cons_prefix_cons.2 ⟨rfl, hus⟩)⟩
  · rintro ⟨hnil, hcons⟩ us hus
    obtain rfl | ⟨vs, rfl, hvs⟩ := List.prefix_cons_iff.1 hus
    · exact hnil
    · exact hcons vs hvs

@[simp] theorem openings_cons (t : Token) (ts : List Token) :
    openings (t :: ts) = openings ts + if t.isOpening then 1 else 0 := List.countP_cons

@[simp] theorem closings_cons (t : Token) (ts : List Token) :
    closings (t :: ts) = closings ts + if t.isClosing then 1 else 0 := List.countP_cons

@[simp] theorem openings_nil : openings [] = 0 := rfl

@[simp] theorem closings_nil : closings [] = 0 := rfl

theorem nesting_eq_some_iff {n m : Nat} {ts : List Token} :
    nesting n ts = some m ↔
      (∀ us, us <+: ts → closings us ≤ openings us + n) ∧ m + closings ts = openings ts + n := by
  fun_induction nesting n ts with
  | case1 n => simp [eq_comm]
  | case2 n p ts ih =>
    have hadd : ∀ k, k + (n + 1) = k + 1 + n := fun k => by omega
    rw [ih, forall_prefix_cons_iff]
    simp [isOpening, isClosing, hadd]
  | case3 p ts =>
    rw [forall_prefix_cons_iff]
    simp only [reduceCtorEq, false_iff]
    rintro ⟨⟨-, h⟩, -⟩
    exact absurd (h [] List.nil_prefix) (by simp [isOpening, isClosing])
  | case4 n p ts ih =>
    rw [ih, forall_prefix_cons_iff]
    simp [isOpening, isClosing, ← Nat.add_assoc]
  | case5 n p letters ts ih =>
    rw [ih, forall_prefix_cons_iff]
    simp [isOpening, isClosing]

theorem balanced_iff {ts : List Token} : Balanced ts ↔ nesting 0 ts = some 0 := by
  rw [nesting_eq_some_iff]
  simp [Balanced, Matched]

end Token

namespace SExpr

open Token

mutual

/-- The tokens that a term is made of, where it stands in the text. -/
def tokens : SExpr Span → List Token
  | .symbol span name => [.word span.start.toNat name.toList]
  | .list span items =>
    .opening span.start.toNat :: (itemTokens items ++ [.closing (span.stop - 1).toNat])

def itemTokens : List (SExpr Span) → List Token
  | [] => []
  | t :: ts => t.tokens ++ itemTokens ts

end

@[simp] theorem itemTokens_append (ts us : List (SExpr Span)) :
    itemTokens (ts ++ us) = itemTokens ts ++ itemTokens us := by
  induction ts with
  | nil => rfl
  | cons t ts ih => simp [itemTokens, ih]

theorem itemTokens_eq_flatMap (ts : List (SExpr Span)) : itemTokens ts = ts.flatMap tokens := by
  induction ts with
  | nil => rfl
  | cons t ts ih => rw [itemTokens, ih, List.flatMap_cons]

mutual

theorem nesting_tokens (n : Nat) : (t : SExpr Span) → nesting n t.tokens = some n
  | .symbol _ _ => rfl
  | .list _ items => by
    simp [tokens, nesting, nesting_append, nesting_itemTokens (n + 1) items]

theorem nesting_itemTokens (n : Nat) : (ts : List (SExpr Span)) →
    nesting n (itemTokens ts) = some n
  | [] => rfl
  | t :: ts => by
    simp [itemTokens, nesting_append, nesting_tokens n t, nesting_itemTokens n ts]

end

mutual

/-- The spans of a term are where its tokens stand. -/
def Placed : SExpr Span → Prop
  | .symbol span name => ∃ p : Nat, span = ⟨p, p + name.toList.length⟩
  | .list span items => (∃ p q : Nat, span = ⟨p, q + 1⟩) ∧ ItemsPlaced items

def ItemsPlaced : List (SExpr Span) → Prop
  | [] => True
  | t :: ts => t.Placed ∧ ItemsPlaced ts

end

theorem itemsPlaced_iff {ts : List (SExpr Span)} : ItemsPlaced ts ↔ ∀ t ∈ ts, t.Placed := by
  induction ts with
  | nil => simp [ItemsPlaced]
  | cons t ts ih => simp [ItemsPlaced, ih]

end SExpr

namespace Term

open Token SExpr

/-- The tokens read into lists that are still open, innermost list first. -/
def openTokens : List Open → List Token
  | [] => []
  | o :: stack => openTokens stack ++ .opening o.start :: itemTokens o.items.reverse

theorem openTokens_push (o : Open) (t : Term) (stack : List Open) :
    openTokens (o.push t :: stack) = openTokens (o :: stack) ++ t.tokens := by
  simp [openTokens, Open.push, itemTokens]

theorem tokens_close (o : Open) (p : Nat) :
    (o.close (p + 1)).tokens =
      .opening o.start :: (itemTokens o.items.reverse ++ [.closing p]) := by
  simp [Open.close, tokens]

theorem tokens_ofWord (p : Nat) (letters : List Char) :
    (ofWord p (p + letters.length) letters).tokens = [.word p letters] := by
  simp [ofWord, tokens]

/-- Nothing is lost of a term and of what is after it. -/
theorem tokens_of_readOne {size : Nat} {stack : List Open} {ts : List Token} {t : Term}
    {rest : List Token} (h : readOne size stack ts = .ok (t, rest)) :
    t.tokens ++ rest = openTokens stack ++ ts := by
  fun_induction readOne size stack ts with
  | case1 => cases h
  | case2 stack p ts ih => simp [ih h, openTokens, itemTokens]
  | case3 => cases h
  | case4 o p ts =>
    cases h
    simp [tokens_close, openTokens]
  | case5 o outer stack p ts ih =>
    rw [ih h, openTokens_push, tokens_close]
    simp [openTokens]
  | case6 p letters ts =>
    cases h
    simp [tokens_ofWord, openTokens]
  | case7 o stack p letters ts ih => simp [ih h, openTokens_push, tokens_ofWord]

theorem placed_ofWord (p : Nat) (letters : List Char) :
    (ofWord p (p + letters.length) letters).Placed := ⟨p, by simp⟩

theorem placed_close {o : Open} (h : ItemsPlaced o.items) (p : Nat) : (o.close (p + 1)).Placed := by
  refine ⟨⟨o.start, p, by simp⟩, ?_⟩
  rw [itemsPlaced_iff] at h ⊢
  simpa using h

theorem placed_of_readOne {size : Nat} {stack : List Open} {ts : List Token} {t : Term}
    {rest : List Token} (h : readOne size stack ts = .ok (t, rest))
    (hstack : ∀ o ∈ stack, ItemsPlaced o.items) : t.Placed := by
  fun_induction readOne size stack ts with
  | case1 => cases h
  | case2 stack p ts ih => exact ih h (by simpa [ItemsPlaced] using hstack)
  | case3 => cases h
  | case4 o p ts =>
    cases h
    exact placed_close (hstack o (by simp)) p
  | case5 o outer stack p ts ih =>
    simp only [List.mem_cons, forall_eq_or_imp] at hstack ih
    exact ih h ⟨⟨placed_close hstack.1 p, hstack.2.1⟩, hstack.2.2⟩
  | case6 p letters ts =>
    cases h
    exact placed_ofWord p letters
  | case7 o stack p letters ts ih =>
    simp only [List.mem_cons, forall_eq_or_imp] at hstack ih
    exact ih h ⟨⟨placed_ofWord p letters, hstack.1⟩, hstack.2⟩

/-- Inside of a list, reading fails only if the text ends before the list does. -/
theorem error_of_readOne_open {size : Nat} {stack : List Open} {ts : List Token} {e : SyntaxError}
    (h : readOne size stack ts = .error e) (hstack : stack ≠ []) :
    e = endOfFile size ∧ ∃ n, nesting stack.length ts = some (n + 1) := by
  fun_induction readOne size stack ts with
  | case1 stack =>
    cases h
    exact ⟨rfl, stack.length - 1, by simp [nesting]; have := List.length_pos_iff.2 hstack; omega⟩
  | case2 stack p ts ih => exact ih h (by simp)
  | case3 => exact absurd rfl hstack
  | case4 => cases h
  | case5 o outer stack p ts ih => exact ih h (by simp)
  | case6 => cases h
  | case7 o stack p letters ts ih => exact ih h (by simp)

/-- Reading one term fails at a closing parenthesis that comes first, or at the end of the text. -/
theorem error_of_readOne {size : Nat} {ts : List Token} {e : SyntaxError}
    (h : readOne size [] ts = .error e) :
    (∃ p rest, ts = .closing p :: rest ∧ e = endOfList p) ∨
      e = endOfFile size ∧ (ts = [] ∨ ∃ n, nesting 0 ts = some (n + 1)) := by
  cases ts with
  | nil =>
    cases h
    exact .inr ⟨rfl, .inl rfl⟩
  | cons t ts =>
    cases t with
    | opening p =>
      have hopen : readOne size [⟨p, []⟩] ts = .error e := h
      obtain ⟨he, hn⟩ := error_of_readOne_open hopen (by simp)
      exact .inr ⟨he, .inr hn⟩
    | closing p =>
      cases h
      exact .inl ⟨p, ts, rfl, rfl⟩
    | word p letters => cases h

/-- Where the parentheses do not match: at a closing one after tokens in which all do, or at the end
of a text that leaves lists open. -/
def Mistaken (size : Nat) (ts : List Token) (e : SyntaxError) : Prop :=
  (∃ us p vs, ts = us ++ .closing p :: vs ∧ Balanced us ∧ e = endOfList p) ∨
    (Matched ts ∧ closings ts < openings ts) ∧ e = endOfFile size

theorem matched_and_lt_iff {ts : List Token} :
    Matched ts ∧ closings ts < openings ts ↔ ∃ n, nesting 0 ts = some (n + 1) := by
  simp only [nesting_eq_some_iff, Nat.add_zero, exists_and_left, Matched]
  refine and_congr_right fun _ => ⟨fun h => ⟨openings ts - closings ts - 1, by omega⟩, ?_⟩
  rintro ⟨n, hn⟩
  omega

theorem Mistaken.not_balanced {size : Nat} {ts : List Token} {e : SyntaxError}
    (h : Mistaken size ts e) : ¬ Balanced ts := by
  rintro hts
  obtain ⟨us, p, vs, rfl, hus, -⟩ | ⟨⟨-, hlt⟩, -⟩ := h
  · rw [balanced_iff] at hts hus
    simp [nesting_append, hus, nesting] at hts
  · exact absurd hts.2 (Nat.ne_of_lt hlt)

theorem Mistaken.append {size : Nat} {ts : List Token} {e : SyntaxError} (h : Mistaken size ts e)
    {us : List Token} (hus : Balanced us) : Mistaken size (us ++ ts) e := by
  rw [balanced_iff] at hus
  obtain ⟨vs, p, ws, rfl, hvs, rfl⟩ | ⟨hopen, rfl⟩ := h
  · refine .inl ⟨us ++ vs, p, ws, by simp, ?_, rfl⟩
    rw [balanced_iff] at hvs ⊢
    simp [nesting_append, hus, hvs]
  · refine .inr ⟨?_, rfl⟩
    rw [matched_and_lt_iff] at hopen ⊢
    simpa [nesting_append, hus] using hopen

theorem readMany_cons (size : Nat) (t : Token) (ts : List Token) :
    readMany size (t :: ts) = match readOne size [] (t :: ts) with
      | .error e => .error e
      | .ok (term, rest) => (readMany size rest).map (term :: ·) := by
  rw [readMany]
  split
  · rename_i h
    rw [h]
  · rename_i term rest h
    rw [h]
    dsimp only
    cases readMany size rest <;> rfl

/-- Terms read from tokens give the tokens back, and a mistake is where the tokens have one. -/
def Reads (size : Nat) (ts : List Token) : Except SyntaxError (List Term) → Prop
  | .ok terms => itemTokens terms = ts ∧ ItemsPlaced terms
  | .error e => Mistaken size ts e

theorem readMany_reads (size : Nat) (ts : List Token) : Reads size ts (readMany size ts) := by
  fun_induction readMany size ts with
  | case1 => exact ⟨rfl, trivial⟩
  | case2 t ts e h =>
    obtain ⟨p, rest, hts, he⟩ | ⟨he, hts⟩ := error_of_readOne h
    · exact .inl ⟨[], p, rest, hts, balanced_iff.2 rfl, he⟩
    · exact .inr ⟨matched_and_lt_iff.2 (hts.resolve_left (by simp)), he⟩
  | case3 t ts term rest h ih =>
    have htokens : t :: ts = term.tokens ++ rest := (tokens_of_readOne h).symm
    rw [htokens]
    cases hrest : readMany size rest with
    | error e =>
      rw [hrest] at ih
      exact Mistaken.append ih (balanced_iff.2 (nesting_tokens 0 term))
    | ok terms =>
      rw [hrest] at ih
      obtain ⟨hitems, hplaced⟩ := ih
      exact ⟨by rw [itemTokens, hitems], placed_of_readOne h (by simp), hplaced⟩

end Term

namespace Source

open Token SExpr Term

theorem terms_reads (s : Source) : Reads s.text.length (ofText s.text) s.terms :=
  readMany_reads _ _

theorem term_eq_ok_iff_readOne {s : Source} {t : Term} :
    s.term = .ok t ↔ readOne s.text.length [] (ofText s.text) = .ok (t, []) := by
  rw [term]
  cases readOne s.text.length [] (ofText s.text) with
  | error e => simp [bind, Except.bind]
  | ok result =>
    obtain ⟨t', rest⟩ := result
    cases rest with
    | nil => simp [bind, Except.bind, pure, Except.pure]
    | cons u rest => simp [bind, Except.bind, throw, throwThe, MonadExceptOf.throw]

theorem term_eq_ok_iff {s : Source} {t : Term} : s.term = .ok t ↔ s.terms = .ok [t] := by
  rw [term_eq_ok_iff_readOne, terms]
  cases ofText s.text with
  | nil => simp [readOne, readMany]
  | cons u us =>
    rw [readMany_cons]
    cases hone : readOne s.text.length [] (u :: us) with
    | error e => simp
    | ok result =>
      obtain ⟨t', rest⟩ := result
      have hrest : readMany s.text.length rest = .ok [] ↔ rest = [] := by
        constructor
        · intro h
          have hreads := readMany_reads s.text.length rest
          rw [h] at hreads
          exact hreads.1.symm
        · rintro rfl
          rw [readMany]
      cases hmany : readMany s.text.length rest with
      | error e => simp_all [Except.map]
      | ok terms => simp_all [Except.map]

theorem terms_eq_ok_iff_balanced (s : Source) :
    (∃ terms, s.terms = .ok terms) ↔ Balanced (ofText s.text) := by
  have h := terms_reads s
  cases hterms : s.terms with
  | ok terms =>
    rw [hterms] at h
    refine iff_of_true ⟨terms, rfl⟩ ?_
    rw [← h.1, balanced_iff]
    exact nesting_itemTokens 0 terms
  | error e =>
    rw [hterms] at h
    exact iff_of_false (by simp) h.not_balanced

/-- A text is read exactly if its parentheses match, and then its terms give back its tokens, which
are all that stands in it.  Otherwise the first closing parenthesis without a partner is the
mistake, or the end of the text if there is none.  The only term of a text is read exactly if
there is one. -/
theorem terms_read_exactly (s : Source) :
    (∀ ts, Divides s.text ts ↔ ts = ofText s.text) ∧
      ((∃ terms, s.terms = .ok terms) ↔ Balanced (ofText s.text)) ∧
      (∀ terms, s.terms = .ok terms → terms.flatMap tokens = ofText s.text) ∧
      (∀ e, s.terms = .error e → Mistaken s.text.length (ofText s.text) e) ∧
      ∀ t, s.term = .ok t ↔ s.terms = .ok [t] := by
  have hreads := terms_reads s
  refine ⟨fun _ => divides_iff, terms_eq_ok_iff_balanced s, ?_, ?_, fun _ => term_eq_ok_iff⟩
  · intro terms hterms
    rw [hterms] at hreads
    rw [← itemTokens_eq_flatMap]
    exact hreads.1
  · intro e he
    rw [he] at hreads
    exact hreads

/-- The closing parenthesis in the comment is none, and the one at position 10 has no partner. -/
theorem terms_read_exactly_comment :
    let s := Source.ofString "comment" "(a ;)\n(b)))("
    s.terms = .error (endOfList 10) ∧ Mistaken s.text.length (ofText s.text) (endOfList 10) := by
  have h : (Source.ofString "comment" "(a ;)\n(b)))(").terms = .error (endOfList 10) := by cbv
  exact ⟨h, (terms_read_exactly _).2.2.2.1 _ h⟩

end Source

end Lasso
