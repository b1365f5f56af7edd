import Mathlib.Data.List.Forall2
import Lasso.Source.SpanMap
import Lasso.Proofs.SExpr.Reader

/-! # Terms with identities

Spans may be kept beside the terms, in a map from what identifies a term to where it stands.  A term
is identified by the number of terms that were made before it.  The map refuses an identity that it
has already, and no span ends before it starts; reading a text never comes to either, and the terms
are those that carry their spans.
-/

namespace Lasso

set_option autoImplicit false

/-- What reading may break off with instead of an answer. -/
inductive Crash where
  | key (error : SpanMap.KeyError Nat)
  | span (start stop : Int)
  | noList
  | noElement

namespace SpanMap

/-- A map gives the nodes of one term the spans that another carries. -/
def Places (m : SpanMap Nat) (x : SExpr Nat) (t : Term) : Prop := x.map m.get? = t.map some

def Grows (m m' : SpanMap Nat) : Prop := ∀ n span, m.get? n = some span → m'.get? n = some span

theorem get?_insertNew {m m' : SpanMap Nat} {n : Nat} {span : Span}
    (h : m.insertNew n span = .ok m') (k : Nat) :
    m'.get? k = if n = k then some span else m.get? k := by
  rw [insertNew] at h
  split at h
  · cases h
  · cases h
    rw [get?, get?, Std.HashMap.getElem?_insert]
    simp only [beq_iff_eq]

theorem exists_insertNew {m : SpanMap Nat} {n : Nat} (h : m.get? n = none) (span : Span) :
    ∃ m', m.insertNew n span = .ok m' := by
  have hnew : m.contains n = false := by
    rw [contains, Std.HashMap.contains_eq_isSome_getElem?]
    exact Option.isSome_eq_false_iff.2 (Option.isNone_iff_eq_none.2 h)
  exact ⟨_, by rw [insertNew, hnew, if_neg Bool.false_ne_true]⟩

variable {m m' : SpanMap Nat} {x : SExpr Nat} {t : Term}

theorem Grows.trans {m'' : SpanMap Nat} (h : m.Grows m') (h' : m'.Grows m'') : m.Grows m'' :=
  fun n span hn => h' n span (h n span hn)

theorem places_symbol_iff {n : Nat} {name : String} : m.Places (.symbol n name) t ↔
    ∃ span, m.get? n = some span ∧ t = .symbol span name := by
  constructor
  · intro h
    cases t with
    | symbol span name' =>
      rw [Places, SExpr.map, SExpr.map, SExpr.symbol.injEq] at h
      exact ⟨span, h.1, by rw [h.2]⟩
    | list span ts => cases h
  · rintro ⟨span, hn, rfl⟩
    rw [Places, SExpr.map, SExpr.map, hn]

theorem mapItems_eq_iff {xs : List (SExpr Nat)} {ts : List Term} :
    SExpr.mapItems m.get? xs = SExpr.mapItems some ts ↔ List.Forall₂ m.Places xs ts := by
  induction xs generalizing ts with
  | nil => cases ts <;> simp [SExpr.mapItems]
  | cons x xs ih =>
    cases ts with
    | nil => simp [SExpr.mapItems]
    | cons t ts => simp only [SExpr.mapItems, List.cons.injEq, List.forall₂_cons, ih, Places]

theorem places_list_iff {n : Nat} {xs : List (SExpr Nat)} : m.Places (.list n xs) t ↔
    ∃ span ts, m.get? n = some span ∧ List.Forall₂ m.Places xs ts ∧ t = .list span ts := by
  constructor
  · intro h
    cases t with
    | symbol span name => cases h
    | list span ts =>
      rw [Places, SExpr.map, SExpr.map, SExpr.list.injEq, mapItems_eq_iff] at h
      exact ⟨span, ts, h.1, h.2, rfl⟩
  · rintro ⟨span, ts, hn, hitems, rfl⟩
    rw [Places, SExpr.map, SExpr.map, hn, mapItems_eq_iff.2 hitems]

mutual

theorem Places.mono (h : m.Grows m') : {x : SExpr Nat} → {t : Term} → m.Places x t → m'.Places x t
  | .symbol _ _, _, hx => by
    obtain ⟨span, hn, rfl⟩ := places_symbol_iff.1 hx
    exact places_symbol_iff.2 ⟨span, h _ _ hn, rfl⟩
  | .list _ _, _, hx => by
    obtain ⟨span, ts, hn, hitems, rfl⟩ := places_list_iff.1 hx
    exact places_list_iff.2 ⟨span, ts, h _ _ hn, Places.mono_items h hitems, rfl⟩

theorem Places.mono_items (h : m.Grows m') : {xs : List (SExpr Nat)} → {ts : List Term} →
    List.Forall₂ m.Places xs ts → List.Forall₂ m'.Places xs ts
  | [], _, .nil => .nil
  | _ :: _, _, .cons hx hxs => .cons (Places.mono h hx) (Places.mono_items h hxs)

end

theorem Places.get?_note (h : m.Places x t) : m.get? x.note = some t.note := by
  cases x with
  | symbol n name =>
    obtain ⟨span, hn, rfl⟩ := places_symbol_iff.1 h
    exact hn
  | list n xs =>
    obtain ⟨span, ts, hn, -, rfl⟩ := places_list_iff.1 h
    exact hn

end SpanMap

/-- The terms made so far: how many there are, and where they stand. -/
structure Registry where
  made : Nat := 0
  spans : SpanMap Nat := ∅

namespace Registry

/-- No identity is in use that is still to be given. -/
def Fresh (r : Registry) : Prop := ∀ n, r.made ≤ n → r.spans.get? n = none

theorem fresh_empty : Fresh {} := fun _ _ => Std.HashMap.getElem?_empty

end Registry

namespace Checked

/-- Reading with identities, which may crash. -/
abbrev ParseM := StateT Registry (Except Crash)

/-- Gives a term the next identity and keeps its span. -/
def register (make : Nat → SExpr Nat) (start stop : Nat) : ParseM (SExpr Nat) := fun r =>
  match Span.of? start stop with
  | none => .error (.span start stop)
  | some span =>
    match r.spans.insertNew r.made span with
    | .error e => .error (.key e)
    | .ok spans => .ok (make r.made, ⟨r.made + 1, spans⟩)

def mistake (position : Nat) (message : String) : ParseM SyntaxError :=
  match Span.of? position (position + 1) with
  | none => throw (.span position (position + 1))
  | some span => return ⟨span, message⟩

/-- A list that is not closed yet, with its items in reverse. -/
structure Open where
  start : Nat
  items : List (SExpr Nat)

def Open.push (o : Open) (x : SExpr Nat) : Open := { o with items := x :: o.items }

/-- Reads one term, inside of some open lists. -/
def readOne (size : Nat) :
    List Open → List Token → ParseM (Except SyntaxError (SExpr Nat × List Token))
  | _, [] => do return .error (← mistake size "unexpected end-of-file")
  | stack, .opening p :: ts => readOne size (⟨p, []⟩ :: stack) ts
  | [], .closing p :: _ => do return .error (← mistake p "unexpected end-of-list")
  | [o], .closing p :: ts => do
    return .ok (← register (.list · o.items.reverse) o.start (p + 1), ts)
  | o :: outer :: stack, .closing p :: ts => do
    let x ← register (.list · o.items.reverse) o.start (p + 1)
    readOne size (outer.push x :: stack) ts
  | [], .word p letters :: ts => do
    return .ok (← register (.symbol · (String.ofList letters)) p (p + letters.length), ts)
  | o :: stack, .word p letters :: ts => do
    let x ← register (.symbol · (String.ofList letters)) p (p + letters.length)
    readOne size (o.push x :: stack) ts

theorem bind_apply {α β : Type} (m : ParseM α) (k : α → ParseM β) (r : Registry) :
    (m >>= k) r = (m r).bind fun a => k a.1 a.2 := rfl

theorem eq_ok_of_bind {α β : Type} {m : ParseM α} {k : α → ParseM β} {r : Registry}
    {b : β × Registry} (h : (m >>= k) r = .ok b) : ∃ a, m r = .ok a ∧ k a.1 a.2 = .ok b := by
  rw [bind_apply] at h
  cases hm : m r with
  | error e =>
    rw [hm] at h
    cases h
  | ok a =>
    rw [hm] at h
    exact ⟨a, rfl, h⟩

theorem length_lt_of_readOne {size : Nat} {stack : List Open} {ts : List Token} {r r' : Registry}
    {x : SExpr Nat} {rest : List Token}
    (h : readOne size stack ts r = .ok (.ok (x, rest), r')) : rest.length < ts.length := by
  fun_induction readOne size stack ts generalizing r with
  | case1 =>
    obtain ⟨e, -, h⟩ := eq_ok_of_bind h
    cases h
  | case2 stack p ts ih => exact Nat.lt_succ_of_lt (ih h)
  | case3 =>
    obtain ⟨e, -, h⟩ := eq_ok_of_bind h
    cases h
  | case4 =>
    obtain ⟨y, -, h⟩ := eq_ok_of_bind h
    cases h
    exact Nat.lt_succ_self _
  | case5 o outer stack p ts ih =>
    obtain ⟨y, -, h⟩ := eq_ok_of_bind h
    exact Nat.lt_succ_of_lt (ih _ h)
  | case6 =>
    obtain ⟨y, -, h⟩ := eq_ok_of_bind h
    cases h
    exact Nat.lt_succ_self _
  | case7 o stack p letters ts ih =>
    obtain ⟨y, -, h⟩ := eq_ok_of_bind h
    exact Nat.lt_succ_of_lt (ih _ h)

/-- Reads terms until no token is left. -/
def readMany (size : Nat) (ts : List Token) : ParseM (Except SyntaxError (List (SExpr Nat))) :=
  match ts with
  | [] => return .ok []
  | t :: ts => fun r =>
    match _h : readOne size [] (t :: ts) r with
    | .error e => .error e
    | .ok (.error e, r) => .ok (.error e, r)
    | .ok (.ok (x, rest), r) => do
      let (xs, r) ← readMany size rest r
      return (xs.map (x :: ·), r)
termination_by ts.length
decreasing_by exact length_lt_of_readOne _h

theorem readMany_cons (size : Nat) (t : Token) (ts : List Token) :
    readMany size (t :: ts) = do
      match ← readOne size [] (t :: ts) with
      | .error e => return .error e
      | .ok (x, rest) => return (← readMany size rest).map (x :: ·) := by
  funext r
  rw [readMany, bind_apply]
  dsimp only
  split <;> rename_i h <;> rw [h] <;> rfl

/-- What is read without a crash, where no identity that is in use is given again. -/
def Safe {α : Type} (m : ParseM α) (r : Registry) (P : α → SpanMap Nat → Prop) : Prop :=
  ∃ a r', m r = .ok (a, r') ∧ r'.Fresh ∧ r.spans.Grows r'.spans ∧ P a r'.spans

section

variable {α β : Type} {P : α → SpanMap Nat → Prop} {Q : β → SpanMap Nat → Prop} {r : Registry}

theorem Safe.pure (hr : r.Fresh) {a : α} (h : P a r.spans) : Safe (Pure.pure a) r P :=
  ⟨a, r, rfl, hr, fun _ _ hn => hn, h⟩

theorem Safe.bind {m : ParseM α} {k : α → ParseM β} (hm : Safe m r P)
    (hk : ∀ a r', r'.Fresh → r.spans.Grows r'.spans → P a r'.spans → Safe (k a) r' Q) :
    Safe (m >>= k) r Q := by
  obtain ⟨a, r₁, hrun, hfresh, hgrows, ha⟩ := hm
  obtain ⟨b, r₂, hrun', hfresh', hgrows', hb⟩ := hk a r₁ hfresh hgrows ha
  refine ⟨b, r₂, ?_, hfresh', hgrows.trans hgrows', hb⟩
  rw [bind_apply, hrun]
  exact hrun'

theorem register_safe (hr : r.Fresh) (make : Nat → SExpr Nat) {start stop : Nat}
    (h : start ≤ stop) : Safe (register make start stop) r fun x m =>
      ∃ n, x = make n ∧ m.get? n = some ⟨start, stop⟩ := by
  have hnone := hr r.made (Nat.le_refl _)
  obtain ⟨spans, hspans⟩ := SpanMap.exists_insertNew hnone ⟨start, stop⟩
  have hget := SpanMap.get?_insertNew hspans
  have hspan : Span.of? start stop = some ⟨start, stop⟩ := if_pos (by omega)
  refine ⟨make r.made, ⟨r.made + 1, spans⟩, ?_, ?_, ?_, r.made, rfl, by rw [hget, if_pos rfl]⟩
  · rw [register, hspan]
    dsimp only
    rw [hspans]
  · intro n hn
    rw [hget, if_neg (by simp only at hn; omega)]
    exact hr n (by simp only at hn; omega)
  · intro n span hn
    rw [hget, if_neg]
    · exact hn
    · rintro rfl
      rw [hnone] at hn
      cases hn

theorem mistake_safe (hr : r.Fresh) (position : Nat) (message : String) :
    Safe (mistake position message) r fun e _ => e = ⟨Span.single position, message⟩ := by
  have hspan : Span.of? position (position + 1) = some (Span.single position) :=
    if_pos (by omega)
  rw [mistake, hspan]
  exact .pure hr rfl

end

/-- An open list that stands for one of terms with spans. -/
structure Open.For (m : SpanMap Nat) (o : Open) (o' : Term.Open) : Prop where
  start : o.start = o'.start
  items : List.Forall₂ m.Places o.items o'.items

theorem Open.For.mono {m m' : SpanMap Nat} (hm : m.Grows m') {o : Open} {o' : Term.Open}
    (h : o.For m o') : o.For m' o' :=
  ⟨h.start, SpanMap.Places.mono_items hm h.items⟩

theorem Open.For.push {m m' : SpanMap Nat} (hm : m.Grows m') {o : Open} {o' : Term.Open}
    (ho : o.For m o') {x : SExpr Nat} {t : Term} (hx : m'.Places x t) :
    (o.push x).For m' (o'.push t) :=
  ⟨ho.start, .cons hx (SpanMap.Places.mono_items hm ho.items)⟩

/-- What is read with identities stands for what is read with spans. -/
def OutcomeFor {α β : Type} (R : α → β → Prop) : Except SyntaxError α → Except SyntaxError β → Prop
  | .error e, .error e' => e = e'
  | .ok a, .ok b => R a b
  | _, _ => False

theorem outcomeFor_error_iff {α β : Type} {R : α → β → Prop} {out : Except SyntaxError α}
    {e : SyntaxError} : OutcomeFor R out (.error e) ↔ out = .error e := by
  cases out with
  | error e' => simp [OutcomeFor]
  | ok a => simp [OutcomeFor]

theorem outcomeFor_ok_iff {α β : Type} {R : α → β → Prop} {out : Except SyntaxError α} {b : β} :
    OutcomeFor R out (.ok b) ↔ ∃ a, out = .ok a ∧ R a b := by
  cases out with
  | error e' => simp [OutcomeFor]
  | ok a => simp [OutcomeFor]

/-- No open list starts after a token that is still to come. -/
structure InOrder (stack : List Term.Open) (ts : List Token) : Prop where
  tokens : ts.Pairwise fun a b => a.stop ≤ b.start
  starts : ∀ o ∈ stack, ∀ t ∈ ts, o.start ≤ t.stop

theorem InOrder.tail {stack : List Term.Open} {t : Token} {ts : List Token}
    (h : InOrder stack (t :: ts)) : InOrder stack ts :=
  ⟨h.tokens.tail, fun o ho u hu => h.starts o ho u (List.mem_cons_of_mem t hu)⟩

theorem InOrder.opening {stack : List Term.Open} {p : Nat} {ts : List Token}
    (h : InOrder stack (.opening p :: ts)) : InOrder (⟨p, []⟩ :: stack) ts := by
  refine ⟨h.tokens.tail, ?_⟩
  rintro o (_ | ⟨_, ho⟩) u hu
  · have hafter := List.rel_of_pairwise_cons h.tokens hu
    cases u <;> simp only [Token.stop, Token.start] at hafter ⊢ <;> omega
  · exact h.starts o ho u (List.mem_cons_of_mem _ hu)

theorem InOrder.starts_congr {o o' : Term.Open} {stack : List Term.Open} {ts : List Token}
    (h : InOrder (o :: stack) ts) (hstart : o'.start = o.start) : InOrder (o' :: stack) ts := by
  refine ⟨h.tokens, ?_⟩
  rintro u (_ | ⟨_, hu⟩) t ht
  · rw [hstart]
    exact h.starts o List.mem_cons_self t ht
  · exact h.starts u (List.mem_cons_of_mem o hu) t ht

theorem InOrder.closing {o : Term.Open} {stack : List Term.Open} {p : Nat} {ts : List Token}
    (h : InOrder (o :: stack) (.closing p :: ts)) : o.start ≤ p + 1 ∧ InOrder stack ts :=
  ⟨h.starts o List.mem_cons_self _ List.mem_cons_self,
    h.tokens.tail, fun u hu t ht =>
      h.starts u (List.mem_cons_of_mem o hu) t (List.mem_cons_of_mem _ ht)⟩

/-- One term with its identity, and the tokens after it. -/
abbrev OneFor (m : SpanMap Nat) :
    Except SyntaxError (SExpr Nat × List Token) → Except SyntaxError (Term × List Token) → Prop :=
  OutcomeFor fun a b => m.Places a.1 b.1 ∧ a.2 = b.2

theorem close_safe {r : Registry} (hr : r.Fresh) {o : Open} {o' : Term.Open}
    (ho : o.For r.spans o') {stop : Nat} (h : o'.start ≤ stop) :
    Safe (register (.list · o.items.reverse) o.start stop) r fun x m =>
      m.Places x (o'.close stop) := by
  have hregister := register_safe hr (.list · o.items.reverse) (ho.start ▸ h)
  obtain ⟨x, r', hrun, hr', hgrows, n, rfl, hn⟩ := hregister
  refine ⟨_, r', hrun, hr', hgrows, ?_⟩
  rw [ho.start] at hn
  exact SpanMap.places_list_iff.2
    ⟨_, _, hn, List.rel_reverse (SpanMap.Places.mono_items hgrows ho.items), rfl⟩

theorem word_safe {r : Registry} (hr : r.Fresh) (p : Nat) (letters : List Char) :
    Safe (register (.symbol · (String.ofList letters)) p (p + letters.length)) r fun x m =>
      m.Places x (Term.ofWord p (p + letters.length) letters) := by
  obtain ⟨x, r', hrun, hr', hgrows, n, rfl, hn⟩ :=
    register_safe hr (.symbol · (String.ofList letters)) (Nat.le_add_right p letters.length)
  exact ⟨_, r', hrun, hr', hgrows, SpanMap.places_symbol_iff.2 ⟨_, hn, rfl⟩⟩

theorem readOne_safe (size : Nat) {os : List Term.Open} {ts : List Token} (hts : InOrder os ts)
    {stack : List Open} {r : Registry} (hr : r.Fresh)
    (hstack : List.Forall₂ (Open.For r.spans) stack os) :
    Safe (readOne size stack ts) r fun out m => OneFor m out (Term.readOne size os ts) := by
  -- the map only grows, so what the open lists hold so far stays as it is
  fun_induction Term.readOne size os ts generalizing stack r with
  | case1 os =>
    rw [readOne]
    exact (mistake_safe hr size _).bind fun e r' hr' _ he => .pure hr' he
  | case2 os p ts ih =>
    rw [readOne]
    exact ih hts.opening hr (.cons ⟨rfl, .nil⟩ hstack)
  | case3 p ts =>
    cases hstack
    rw [readOne]
    exact (mistake_safe hr p _).bind fun e r' hr' _ he => .pure hr' he
  | case4 o' p ts =>
    obtain ⟨o, ho⟩ : ∃ o, stack = [o] ∧ o.For r.spans o' := by
      cases hstack with
      | cons ho hnil =>
        cases hnil
        exact ⟨_, rfl, ho⟩
    obtain ⟨rfl, ho⟩ := ho
    rw [readOne]
    exact (close_safe hr ho hts.closing.1).bind fun x r' hr' _ hx => .pure hr' ⟨hx, rfl⟩
  | case5 o' outer' os p ts ih =>
    obtain _ | ⟨ho, _ | ⟨houter, hrest⟩⟩ := hstack
    rw [readOne]
    obtain ⟨hstart, hts'⟩ := hts.closing
    refine (close_safe hr ho hstart).bind fun x r' hr' hgrows hx => ?_
    exact ih (hts'.starts_congr rfl) hr'
      (.cons (houter.push hgrows hx) (hrest.imp fun _ _ h => h.mono hgrows))
  | case6 p letters ts =>
    cases hstack
    rw [readOne]
    exact (word_safe hr p letters).bind fun x r' hr' _ hx => .pure hr' ⟨hx, rfl⟩
  | case7 o' os p letters ts ih =>
    obtain _ | ⟨ho, hrest⟩ := hstack
    rw [readOne]
    refine (word_safe hr p letters).bind fun x r' hr' hgrows hx => ?_
    exact ih (hts.tail.starts_congr rfl) hr'
      (.cons (ho.push hgrows hx) (hrest.imp fun _ _ h => h.mono hgrows))

/-- Terms are read with identities wherever they are read with spans, and are the same. -/
theorem readMany_safe (size : Nat) {ts : List Token}
    (hts : ts.Pairwise fun a b => a.stop ≤ b.start) {r : Registry} (hr : r.Fresh) :
    Safe (readMany size ts) r fun out m =>
      OutcomeFor (List.Forall₂ m.Places) out (Term.readMany size ts) := by
  fun_induction Term.readMany size ts generalizing r with
  | case1 =>
    rw [readMany]
    exact .pure hr .nil
  | case2 t ts e h =>
    rw [readMany_cons]
    refine (readOne_safe size ⟨hts, by simp⟩ hr .nil).bind fun out r' hr' _ hout => ?_
    rw [h] at hout
    rw [outcomeFor_error_iff.1 hout]
    exact .pure hr' rfl
  | case3 t ts term rest h ih =>
    have htokens : t :: ts = term.tokens ++ rest := (Term.tokens_of_readOne h).symm
    have hrest := hts.sublist (htokens ▸ List.sublist_append_right _ _ : rest.Sublist (t :: ts))
    rw [readMany_cons]
    refine (readOne_safe size ⟨hts, by simp⟩ hr .nil).bind fun out r' hr' _ hout => ?_
    rw [h] at hout
    obtain ⟨⟨x, rest'⟩, rfl, hx, rfl⟩ := outcomeFor_ok_iff.1 hout
    refine (ih hrest hr').bind fun outs r'' hr'' hgrows houts => .pure hr'' ?_
    cases hmany : Term.readMany size rest' with
    | error e =>
      rw [hmany] at houts
      rw [outcomeFor_error_iff.1 houts]
      rfl
    | ok terms =>
      rw [hmany] at houts
      obtain ⟨xs, rfl, hxs⟩ := outcomeFor_ok_iff.1 houts
      exact .cons (hx.mono hgrows) hxs

end Checked

end Lasso
