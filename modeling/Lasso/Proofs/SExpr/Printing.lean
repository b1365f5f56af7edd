import Lasso.Proofs.SExpr.Reader

/-! # Printing and reading

The canonical text of a tree of words is read as that tree.  So different trees have different
texts, and what was read once is printed and read again without change.
-/

namespace Lasso

set_option autoImplicit false

/-- A token at no position in particular. -/
def Token.unplaced : Token → Token
  | .opening _ => .opening 0
  | .closing _ => .closing 0
  | .word _ letters => .word 0 letters

@[simp] theorem Token.unplaced_eq_opening_iff {t : Token} :
    t.unplaced = .opening 0 ↔ ∃ p, t = .opening p := by
  cases t <;> simp [unplaced]

@[simp] theorem Token.unplaced_eq_closing_iff {t : Token} :
    t.unplaced = .closing 0 ↔ ∃ p, t = .closing p := by
  cases t <;> simp [unplaced]

@[simp] theorem Token.unplaced_eq_word_iff {t : Token} {letters : List Char} :
    t.unplaced = .word 0 letters ↔ ∃ p, t = .word p letters := by
  cases t <;> simp [unplaced]

namespace SExpr

open Token

variable {α β : Type}

mutual

/-- The tokens that spell a tree, at no position in particular. -/
def spelling : SExpr α → List Token
  | .symbol _ name => [.word 0 name.toList]
  | .list _ items => .opening 0 :: (itemSpelling items ++ [.closing 0])

def itemSpelling : List (SExpr α) → List Token
  | [] => []
  | e :: es => e.spelling ++ itemSpelling es

end

mutual

/-- Every symbol is a word. -/
def isPlain : SExpr α → Bool
  | .symbol _ name => !name.toList.isEmpty && name.toList.all isWordChar
  | .list _ items => itemsPlain items

def itemsPlain : List (SExpr α) → Bool
  | [] => true
  | e :: es => e.isPlain && itemsPlain es

end

mutual

@[simp] theorem text_map (f : α → β) : (e : SExpr α) → (e.map f).text = e.text
  | .symbol _ _ => rfl
  | .list _ items => by simp only [map, text, textItems_mapItems f items]

@[simp] theorem textItems_mapItems (f : α → β) : (es : List (SExpr α)) →
    textItems (mapItems f es) = textItems es
  | [] => rfl
  | [e] => by simp only [mapItems, textItems, text_map f e]
  | e :: e' :: es => by
    have h := textItems_mapItems f (e' :: es)
    simp only [mapItems] at h
    simp only [mapItems, textItems, text_map f e, h]

end

mutual

@[simp] theorem isPlain_map (f : α → β) : (e : SExpr α) → (e.map f).isPlain = e.isPlain
  | .symbol _ _ => rfl
  | .list _ items => itemsPlain_mapItems f items

@[simp] theorem itemsPlain_mapItems (f : α → β) : (es : List (SExpr α)) →
    itemsPlain (mapItems f es) = itemsPlain es
  | [] => rfl
  | e :: es => by simp only [mapItems, itemsPlain, isPlain_map f e, itemsPlain_mapItems f es]

end

mutual

@[simp] theorem spelling_map (f : α → β) : (e : SExpr α) → (e.map f).spelling = e.spelling
  | .symbol _ _ => rfl
  | .list _ items => by simp only [map, spelling, itemSpelling_mapItems f items]

@[simp] theorem itemSpelling_mapItems (f : α → β) : (es : List (SExpr α)) →
    itemSpelling (mapItems f es) = itemSpelling es
  | [] => rfl
  | e :: es => by simp only [mapItems, itemSpelling, spelling_map f e, itemSpelling_mapItems f es]

end

mutual

theorem unplaced_tokens : (t : SExpr Span) → t.tokens.map unplaced = t.spelling
  | .symbol _ _ => rfl
  | .list _ items => by
    simp [tokens, spelling, unplaced, unplaced_itemTokens items]

theorem unplaced_itemTokens : (ts : List (SExpr Span)) →
    (itemTokens ts).map unplaced = itemSpelling ts
  | [] => rfl
  | t :: ts => by
    simp [itemTokens, itemSpelling, unplaced_tokens t, unplaced_itemTokens ts]

end

end SExpr

namespace Term

open Token SExpr

variable {α : Type}

def Open.pushAll (o : Open) (ts : List Term) : Open := { o with items := ts.reverse ++ o.items }

theorem Open.pushAll_push (o : Open) (t : Term) (ts : List Term) :
    (o.push t).pushAll ts = o.pushAll (t :: ts) := by
  simp [Open.pushAll, Open.push]

/-- From tokens that begin with those of a tree, the tree is read. -/
structure Spells (size : Nat) (e : SExpr Unit) (rest ts : List Token) (t : Term)
    (us : List Token) : Prop where
  erase : t.erase = e
  rest : us.map unplaced = rest
  alone : readOne size [] ts = .ok (t, us)
  inside : ∀ o stack, readOne size (o :: stack) ts = readOne size (o.push t :: stack) us

mutual

theorem exists_spells (size : Nat) {rest : List Token} : (e : SExpr Unit) → {ts : List Token} →
    ts.map unplaced = e.spelling ++ rest → ∃ t us, Spells size e rest ts t us
  | .symbol _ name, ts, h => by
    obtain ⟨_, us, rfl, hword, hus⟩ := List.map_eq_cons_iff.1 h
    obtain ⟨p, rfl⟩ := unplaced_eq_word_iff.1 hword
    refine ⟨ofWord p (p + name.toList.length) name.toList, us, ?_, hus, rfl, fun o stack => rfl⟩
    simp [ofWord, SExpr.erase, map]
  | .list _ items, ts, h => by
    simp only [spelling, List.cons_append, List.append_assoc] at h
    obtain ⟨_, us, rfl, hopening, hus⟩ := List.map_eq_cons_iff.1 h
    obtain ⟨p, rfl⟩ := unplaced_eq_opening_iff.1 hopening
    obtain ⟨terms, vs, hterms, hvs, hread⟩ := exists_itemsSpelled size items hus
    obtain ⟨_, ws, rfl, hclosing, hws⟩ := List.map_eq_cons_iff.1 hvs
    obtain ⟨q, rfl⟩ := unplaced_eq_closing_iff.1 hclosing
    refine ⟨(Open.pushAll ⟨p, []⟩ terms).close (q + 1), ws, ?_, hws, ?_, fun o stack => ?_⟩
    · simp [Open.close, Open.pushAll, SExpr.erase, map, hterms]
    · rw [readOne, hread, readOne]
    · rw [readOne, hread, readOne]

theorem exists_itemsSpelled (size : Nat) {rest : List Token} : (es : List (SExpr Unit)) →
    {ts : List Token} → ts.map unplaced = itemSpelling es ++ rest →
    ∃ terms us, mapItems (fun _ => ()) terms = es ∧ us.map unplaced = rest ∧
      ∀ o stack, readOne size (o :: stack) ts = readOne size (o.pushAll terms :: stack) us
  | [], ts, h => ⟨[], ts, rfl, h, fun o stack => rfl⟩
  | e :: es, ts, h => by
    rw [itemSpelling, List.append_assoc] at h
    obtain ⟨t, us, ht⟩ := exists_spells size e h
    obtain ⟨terms, vs, hterms, hvs, hread⟩ := exists_itemsSpelled size es ht.rest
    refine ⟨t :: terms, vs, ?_, hvs, fun o stack => ?_⟩
    · rw [mapItems, hterms, ← ht.erase]
      rfl
    · rw [ht.inside, hread, Open.pushAll_push]

end

end Term

theorem Source.exists_term {s : Source} {e : SExpr Unit}
    (h : (Token.ofText s.text).map Token.unplaced = e.spelling) :
    ∃ t, s.term = .ok t ∧ t.erase = e := by
  rw [← List.append_nil e.spelling] at h
  obtain ⟨t, us, ht⟩ := Term.exists_spells s.text.length e h
  obtain rfl := List.map_eq_nil_iff.1 ht.rest
  exact ⟨t, term_eq_ok_iff_readOne.2 ht.alone, ht.erase⟩

namespace Token

theorem scan_letters {letters : List Char} (h : ∀ c ∈ letters, isWordChar c = true) (p q : Nat)
    (read rest : List Char) :
    scan (.word p read) q (letters ++ rest) =
      scan (.word p (letters.reverse ++ read)) (q + letters.length) rest := by
  induction letters generalizing q read with
  | nil => rfl
  | cons c letters ih =>
    rw [List.cons_append, scan_letter (by simp) q (h c (by simp)), Mode.letter,
      ih (fun d hd => h d (by simp [hd]))]
    simp [Nat.add_comm, Nat.add_left_comm]

theorem scan_word_end {rest : List Char} (h : ¬ StartsWord rest) (p q : Nat) (read : List Char) :
    scan (.word p read) q rest = .word p read.reverse :: scan .between q rest := by
  cases rest with
  | nil => rfl
  | cons c rest =>
    have hc : isWordChar c = false := by simpa using h
    rw [scan_cons (by simp), scan_cons (by simp)]
    obtain rfl | rfl | rfl | hblank := isWordChar_eq_false_iff.1 hc
    · rfl
    · rfl
    · rfl
    · have hne : c ≠ '(' ∧ c ≠ ')' ∧ c ≠ ';' := by
        refine ⟨?_, ?_, ?_⟩ <;> rintro rfl <;> exact absurd hblank (by decide)
      simp [hne, hblank, Mode.finish]

theorem scan_word {letters rest : List Char} (hne : letters ≠ [])
    (h : ∀ c ∈ letters, isWordChar c = true) (hrest : ¬ StartsWord rest) (p : Nat) :
    scan .between p (letters ++ rest) =
      .word p letters :: scan .between (p + letters.length) rest := by
  obtain ⟨c, letters, rfl⟩ := List.exists_cons_of_ne_nil hne
  rw [List.cons_append, scan_letter (by simp) p (h c (by simp)), Mode.letter,
    scan_letters (fun d hd => h d (by simp [hd])), scan_word_end hrest]
  · simp [Nat.add_comm, Nat.add_left_comm]
  · intro _ _
    simp

end Token

namespace SExpr

open Token

variable {α : Type}

mutual

theorem exists_scan_text : (e : SExpr α) → e.isPlain → ∀ {rest : List Char}, ¬ StartsWord rest →
    ∀ p, ∃ q, (scan .between p (e.text.toList ++ rest)).map unplaced =
      e.spelling ++ (scan .between q rest).map unplaced
  | .symbol _ name, h, rest, hrest, p => by
    simp only [isPlain, Bool.and_eq_true, Bool.not_eq_true', List.isEmpty_eq_false_iff,
      List.all_eq_true] at h
    refine ⟨p + name.toList.length, ?_⟩
    rw [text, scan_word h.1 h.2 hrest]
    rfl
  | .list note items, h, rest, hrest, p => by
    have hclose : ¬ StartsWord (')' :: rest) := by
      rw [startsWord_cons_iff]
      decide
    obtain ⟨q, hq⟩ := exists_scan_textItems items h hclose (p + 1)
    have htext : (text (.list note items)).toList ++ rest =
        '(' :: ((textItems items).toList ++ ')' :: rest) := by simp [text]
    have hopen : ∀ cs, scan .between p ('(' :: cs) = .opening p :: scan .between (p + 1) cs :=
      fun cs => rfl
    have hclose : scan .between q (')' :: rest) = .closing q :: scan .between (q + 1) rest := rfl
    refine ⟨q + 1, ?_⟩
    rw [htext, hopen, List.map_cons, hq, hclose]
    simp [spelling, unplaced]

theorem exists_scan_textItems : (es : List (SExpr α)) → itemsPlain es → ∀ {rest : List Char},
    ¬ StartsWord rest → ∀ p, ∃ q, (scan .between p ((textItems es).toList ++ rest)).map unplaced =
      itemSpelling es ++ (scan .between q rest).map unplaced
  | [], _, rest, _, p => ⟨p, by simp [textItems, itemSpelling]⟩
  | [e], h, rest, hrest, p => by
    simp only [itemsPlain, Bool.and_true] at h
    simpa [textItems, itemSpelling] using exists_scan_text e h hrest p
  | e :: e' :: es, h, rest, hrest, p => by
    rw [itemsPlain, Bool.and_eq_true] at h
    have htext : (textItems (e :: e' :: es)).toList ++ rest =
        e.text.toList ++ ' ' :: ((textItems (e' :: es)).toList ++ rest) := by
      simp [textItems]
    -- The blank ends the last word of an item.
    have hblank : ∀ cs, ¬ StartsWord (' ' :: cs) := by
      intro cs
      rw [startsWord_cons_iff]
      decide
    obtain ⟨q, hq⟩ := exists_scan_text e h.1 (hblank ((textItems (e' :: es)).toList ++ rest)) p
    have hskip : ∀ cs, scan .between q (' ' :: cs) = scan .between (q + 1) cs := fun cs => rfl
    obtain ⟨r, hr⟩ := exists_scan_textItems (e' :: es) h.2 hrest (q + 1)
    refine ⟨r, ?_⟩
    rw [htext, hq, hskip, hr, ← List.append_assoc]
    rfl

end

theorem unplaced_ofText {e : SExpr α} (h : e.isPlain) :
    (ofText e.text.toList).map unplaced = e.spelling := by
  obtain ⟨q, hq⟩ := exists_scan_text e h not_startsWord_nil 0
  simpa [ofText, scan, Mode.finish] using hq

/-- A tree of words is read from its text. -/
theorem exists_term_text {e : SExpr Unit} (h : e.isPlain) (name : String) :
    ∃ t, (Source.mk name e.text.toList).term = .ok t ∧ t.erase = e :=
  Source.exists_term (unplaced_ofText h)

theorem eq_of_text_eq {e e' : SExpr Unit} (h : e.isPlain) (h' : e'.isPlain)
    (htext : e.text = e'.text) : e = e' := by
  obtain ⟨t, ht, rfl⟩ := exists_term_text h ""
  obtain ⟨t', ht', rfl⟩ := exists_term_text h' ""
  rw [htext, ht'] at ht
  cases ht
  rfl

mutual

theorem isPlain_of_tokens {cs : List Char} : (t : SExpr Span) → (∀ u ∈ t.tokens, Stands cs u) →
    t.isPlain
  | .symbol span name, h => by
    obtain ⟨w, v, -, -, -, hne, hletters, -⟩ := h (.word span.start.toNat name.toList)
      (by simp [tokens])
    simp only [isPlain, Bool.and_eq_true, Bool.not_eq_true', List.isEmpty_eq_false_iff,
      List.all_eq_true]
    exact ⟨hne, hletters⟩
  | .list _ items, h => itemsPlain_of_tokens items fun u hu => h u (by simp [tokens, hu])

theorem itemsPlain_of_tokens {cs : List Char} : (ts : List (SExpr Span)) →
    (∀ u ∈ itemTokens ts, Stands cs u) → itemsPlain ts
  | [], _ => rfl
  | t :: ts, h => by
    simp only [itemTokens, List.mem_append] at h
    simp [itemsPlain, isPlain_of_tokens t fun u hu => h u (.inl hu),
      itemsPlain_of_tokens ts fun u hu => h u (.inr hu)]

end

end SExpr

namespace Source

open SExpr

theorem tokens_of_term {s : Source} {t : Term} (h : s.term = .ok t) :
    t.tokens = Token.ofText s.text ∧ t.Placed := by
  have hreads := terms_reads s
  rw [term_eq_ok_iff.1 h] at hreads
  obtain ⟨htokens, hplaced, -⟩ := hreads
  exact ⟨by simpa [itemTokens] using htokens, hplaced⟩

theorem isPlain_of_term {s : Source} {t : Term} (h : s.term = .ok t) : t.isPlain := by
  apply isPlain_of_tokens t
  intro u hu
  rw [(tokens_of_term h).1] at hu
  exact Token.mem_ofText_iff.1 hu

/-- Printing and reading are inverse to each other on trees of words, and what is read from any text
is such a tree. -/
theorem term_text_inverse :
    (∀ (name : String) (e : SExpr Unit), e.isPlain →
      ∃ t, (Source.mk name e.text.toList).term = .ok t ∧ t.erase = e) ∧
    (∀ e e' : SExpr Unit, e.isPlain → e'.isPlain → e.text = e'.text → e = e') ∧
    ∀ (s : Source) (t : Term), s.term = .ok t → ∀ name : String,
      ∃ t', (Source.mk name t.text.toList).term = .ok t' ∧ t'.erase = t.erase ∧
        t'.text = t.text := by
  refine ⟨fun name e h => exists_term_text h name, fun e e' => eq_of_text_eq, fun s t h name => ?_⟩
  have htext : t.erase.text = t.text := text_map _ t
  have hplain : t.erase.isPlain := by
    rw [SExpr.erase, isPlain_map]
    exact isPlain_of_term h
  obtain ⟨t', ht', herase⟩ := exists_term_text hplain name
  rw [htext] at ht'
  refine ⟨t', ht', herase, ?_⟩
  rw [← text_map (fun _ => ()) t', ← htext, ← herase]
  rfl

/-- A list in a list, where one is empty. -/
theorem term_text_inverse_nested :
    let e : SExpr Unit := .list () [.symbol () "a", .list () [], .list () [.symbol () "b"]]
    e.isPlain ∧ e.text = "(a () (b))" ∧
      ∃ t, (Source.ofString "nested" "(a () (b))").term = .ok t ∧ t.erase = e := by
  intro e
  have hplain : e.isPlain := by decide
  exact ⟨hplain, by decide, term_text_inverse.1 "nested" e hplain⟩

end Source

end Lasso
