import Lasso.SExpr.Basic
import Lasso.SExpr.Token
import Lasso.Source.Basic

/-! # Reading s-expressions

Terms are built from tokens with a stack of open lists.  Reading fails at the first closing
parenthesis that has no partner, or at the end of the text if a list is left open.
-/

namespace Lasso

set_option autoImplicit false

abbrev Term := SExpr Span

namespace Term

/-- A list that is not closed yet, with its items in reverse. -/
structure Open where
  start : Nat
  items : List Term

def Open.push (o : Open) (t : Term) : Open := { o with items := t :: o.items }

def Open.close (o : Open) (stop : Nat) : Term := .list ⟨o.start, stop⟩ o.items.reverse

def ofWord (start stop : Nat) (letters : List Char) : Term :=
  .symbol ⟨start, stop⟩ (String.ofList letters)

def endOfFile (size : Nat) : SyntaxError := ⟨Span.single size, "unexpected end-of-file"⟩

def endOfList (position : Nat) : SyntaxError := ⟨Span.single position, "unexpected end-of-list"⟩

def remainder (position : Nat) : SyntaxError := ⟨Span.single position, "unexpected remainder"⟩

/-- Reads one term from tokens of a text of the given size, inside of some open lists.  The
result is the outermost term and the tokens after it. -/
def readOne (size : Nat) : List Open → List Token → Except SyntaxError (Term × List Token)
  | _, [] => .error (endOfFile size)
  | stack, .opening p :: ts => readOne size (⟨p, []⟩ :: stack) ts
  | [], .closing p :: _ => .error (endOfList p)
  | [o], .closing p :: ts => .ok (o.close (p + 1), ts)
  | o :: outer :: stack, .closing p :: ts => readOne size (outer.push (o.close (p + 1)) :: stack) ts
  | [], .word p letters :: ts => .ok (ofWord p (p + letters.length) letters, ts)
  | o :: stack, .word p letters :: ts =>
    readOne size (o.push (ofWord p (p + letters.length) letters) :: stack) ts

theorem length_lt_of_readOne {size : Nat} {stack : List Open} {ts : List Token}
    {t : Term} {rest : List Token} (h : readOne size stack ts = .ok (t, rest)) :
    rest.length < ts.length := by
  fun_induction readOne size stack ts <;> simp_all <;> omega

def readMany (size : Nat) (ts : List Token) : Except SyntaxError (List Term) :=
  match ts with
  | [] => .ok []
  | t :: ts =>
    match _h : readOne size [] (t :: ts) with
    | .error e => .error e
    | .ok (term, rest) => return term :: (← readMany size rest)
termination_by ts.length
decreasing_by exact length_lt_of_readOne _h

end Term

namespace Source

def terms (s : Source) : Except SyntaxError (List Term) :=
  Term.readMany s.text.length (Token.ofText s.text)

def term (s : Source) : Except SyntaxError Term := do
  match ← Term.readOne s.text.length [] (Token.ofText s.text) with
  | (term, []) => return term
  | (_, t :: _) => throw (Term.remainder t.start)

end Source

end Lasso
