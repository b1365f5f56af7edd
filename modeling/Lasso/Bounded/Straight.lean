import Lasso.Bounded.Encoder

/-! # Paths without a loop

On a path that does not loop nothing is known beyond the bound, so a formula holds only if what
lies within the bound makes it hold.  In particular nothing holds globally.
-/

namespace Lasso

set_option autoImplicit false

theorem toInt_add_one_of_lt {a b : Int64} (h : a < b) : (a + 1).toInt = a.toInt + 1 := by
  have hab := Int64.lt_iff_toInt_lt.1 h
  have hb := b.toInt_lt
  have ha := a.le_toInt
  rw [Int64.toInt_add, show (1 : Int64).toInt = 1 from rfl]
  exact Int.bmod_eq_of_le (by simp at *; omega) (by simp at *; omega)

namespace Encoder

/-- Binds the encoding of a position, where nothing holds beyond the bound. -/
def position (f : Formula) (time bound offset : Int64) (body : EncodeM Encoded) : EncodeM Encoded :=
  remember ⟨f, time, bound, .none, offset⟩
    (if time > bound then return ⟨Graph.falsity, none⟩ else body)

/-- A formula at a time of a path without a loop.  The parts of an unfolding are all encoded, even
if one of them fails. -/
def encodeStraight (bound offset : Int64) : Formula → Int64 → EncodeM Encoded
  | .atom e, time => position (.atom e) time bound offset (proposition e (time + offset))
  | .unary op f, time => position (.unary op f) time bound offset <|
    match op with
    | .not => return (← encodeStraight bound offset f time).not
    | .next => encodeStraight bound offset f (time + 1)
    | .globally => return ⟨Graph.falsity, none⟩
    | .eventually => do
      let now ← encodeStraight bound offset f time
      let later ←
        if _h : time < bound then encodeStraight bound offset (.unary .eventually f) (time + 1)
        else beyond (.unary .eventually f) (time + 1)
      return ⟨← onGraph (Graph.or now.expr later.expr), now.error?.or later.error?⟩
    | op => return .fail (.unsupported (.unary op f))
  | .binary op f g, time => position (.binary op f g) time bound offset <|
    match op with
    | .untl => do
      let goal ← encodeStraight bound offset g time
      let now ← encodeStraight bound offset f time
      let later ←
        if _h : time < bound then encodeStraight bound offset (.binary .untl f g) (time + 1)
        else beyond (.binary .untl f g) (time + 1)
      let wait ← onGraph (Graph.and now.expr later.expr)
      return ⟨← onGraph (Graph.or goal.expr wait), (goal.error?.or now.error?).or later.error?⟩
    | .releases => do
      let goal ← encodeStraight bound offset g time
      let now ← encodeStraight bound offset f time
      let later ←
        if _h : time < bound then encodeStraight bound offset (.binary .releases f g) (time + 1)
        else beyond (.binary .releases f g) (time + 1)
      let wait ← onGraph (Graph.or now.expr later.expr)
      return ⟨← onGraph (Graph.and goal.expr wait), (goal.error?.or now.error?).or later.error?⟩
    | op =>
      match connective? op with
      | some join =>
        both join (encodeStraight bound offset f time) (encodeStraight bound offset g time)
      | none => return .fail (.unsupported (.binary op f g))
termination_by f time => (sizeOf f, (bound.toInt - time.toInt).toNat)
decreasing_by
  all_goals first
    | apply Prod.Lex.left
      simp +arith
      done
    | apply Prod.Lex.right
      have := toInt_add_one_of_lt _h
      have := Int64.lt_iff_toInt_lt.1 _h
      omega
where
  /-- The position after the bound, if there is one. -/
  beyond (f : Formula) (time : Int64) : EncodeM Encoded :=
    if time > bound then remember ⟨f, time, bound, .none, offset⟩ (return ⟨Graph.falsity, none⟩)
    else return ⟨Graph.falsity, none⟩

def straight (f : Formula) (time bound offset : Int64) : EncodeM Encoded :=
  if time < 0 then return .fail (.argument (.negativeTime time))
  else if bound < 0 then return .fail (.argument (.negativeBound bound))
  else if offset < 0 then return .fail (.argument (.negativeOffset offset))
  else encodeStraight bound offset f time

end Encoder

end Lasso
