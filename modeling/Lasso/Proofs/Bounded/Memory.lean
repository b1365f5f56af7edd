import Lasso.Bounded.Semantics
import Lasso.Proofs.Bounded.Straight

/-! # Encodings with and without a memory

The recursion that encodes formulas binds every encoding to its key.  Here the same recursion is
given what becomes of an encoding.  If encodings are remembered, this is the encoder; if nothing is
remembered, it is the recursion without a cache.
-/

namespace Lasso

set_option autoImplicit false

namespace Encoder

/-- What becomes of an encoding with a key. -/
abbrev Memory := Key → EncodeM Encoded → EncodeM Encoded

def forget : Memory := fun _ body => body

section

variable (keep : Memory)

def positionBy (f : Formula) (time bound offset : Int64) (body : EncodeM Encoded) :
    EncodeM Encoded :=
  keep ⟨f, time, bound, .none, offset⟩
    (if time > bound then return ⟨Graph.falsity, none⟩ else body)

def beyondBy (bound offset : Int64) (f : Formula) (time : Int64) : EncodeM Encoded :=
  if time > bound then keep ⟨f, time, bound, .none, offset⟩ (return ⟨Graph.falsity, none⟩)
  else return ⟨Graph.falsity, none⟩

def encodeStraightBy (bound offset : Int64) : Formula → Int64 → EncodeM Encoded
  | .atom e, time => positionBy keep (.atom e) time bound offset (proposition e (time + offset))
  | .unary op f, time => positionBy keep (.unary op f) time bound offset <|
    match op with
    | .not => return (← encodeStraightBy bound offset f time).not
    | .next => encodeStraightBy bound offset f (time + 1)
    | .globally => return ⟨Graph.falsity, none⟩
    | .eventually => do
      let now ← encodeStraightBy bound offset f time
      let later ←
        (if _h : time < bound then encodeStraightBy bound offset (.unary .eventually f) (time + 1)
        else beyondBy keep bound offset (.unary .eventually f) (time + 1))
      return ⟨← onGraph (Graph.or now.expr later.expr), now.error?.or later.error?⟩
    | op => return .fail (.unsupported (.unary op f))
  | .binary op f g, time => positionBy keep (.binary op f g) time bound offset <|
    match op with
    | .untl => do
      let goal ← encodeStraightBy bound offset g time
      let now ← encodeStraightBy bound offset f time
      let later ←
        (if _h : time < bound then encodeStraightBy bound offset (.binary .untl f g) (time + 1)
        else beyondBy keep bound offset (.binary .untl f g) (time + 1))
      let wait ← onGraph (Graph.and now.expr later.expr)
      return ⟨← onGraph (Graph.or goal.expr wait), (goal.error?.or now.error?).or later.error?⟩
    | .releases => do
      let goal ← encodeStraightBy bound offset g time
      let now ← encodeStraightBy bound offset f time
      let later ←
        (if _h : time < bound then encodeStraightBy bound offset (.binary .releases f g) (time + 1)
        else beyondBy keep bound offset (.binary .releases f g) (time + 1))
      let wait ← onGraph (Graph.or now.expr later.expr)
      return ⟨← onGraph (Graph.and goal.expr wait), (goal.error?.or now.error?).or later.error?⟩
    | op =>
      match connective? op with
      | some join =>
        both join (encodeStraightBy bound offset f time) (encodeStraightBy bound offset g time)
      | none => return .fail (.unsupported (.binary op f g))
termination_by f time => (sizeOf f, (bound.toInt - time.toInt).toNat)
decreasing_by
  all_goals first
    | apply Prod.Lex.left
      simp +arith
      done
    | apply Prod.Lex.right
      have := toInt_add_one_of_lt _h
      have := Int64.lt_iff_toInt_lt.1 _h
      omega

def encodeLoopingBy (bound : Int64) (loop : Loop) (offset : Int64) :
    Formula → Int64 → EncodeM Encoded
  | f, time => keep ⟨f, time, bound, loop, offset⟩ <|
    if bound = 0 ∨ time > bound then return ⟨Graph.falsity, none⟩
    else
      let first := min time loop.word
      match f with
      | .atom e => proposition e (time + offset)
      | .unary .not f => return (← encodeLoopingBy bound loop offset f time).not
      | .unary .next f => encodeLoopingBy bound loop offset f (loop.successor bound time)
      | .unary .globally f =>
        joinTimes Graph.and (encodeLoopingBy bound loop offset f) (times first bound) Graph.truth
      | .unary .eventually f =>
        joinTimes Graph.or (encodeLoopingBy bound loop offset f) (times first bound) Graph.falsity
      | .unary op f => return .fail (.unsupported (.unary op f))
      | .binary .untl f g =>
        unfoldTimes Graph.or Graph.and (encodeLoopingBy bound loop offset g)
          (encodeLoopingBy bound loop offset f) (times first bound).reverse Graph.falsity
      | .binary .releases f g => do
        let last ← encodeLoopingBy bound loop offset g (bound - 1)
        if last.failed then return last
        unfoldTimes Graph.and Graph.or (encodeLoopingBy bound loop offset g)
          (encodeLoopingBy bound loop offset f) (times first (bound - 1)).reverse last.expr
      | .binary op f g =>
        match connective? op with
        | some join =>
          both join (encodeLoopingBy bound loop offset f time)
            (encodeLoopingBy bound loop offset g time)
        | none => return .fail (.unsupported (.binary op f g))

def straightBy (f : Formula) (time bound offset : Int64) : EncodeM Encoded :=
  if time < 0 then return .fail (.argument (.negativeTime time))
  else if bound < 0 then return .fail (.argument (.negativeBound bound))
  else if offset < 0 then return .fail (.argument (.negativeOffset offset))
  else encodeStraightBy keep bound offset f time

def loopingBy (f : Formula) (time bound : Int64) (loop : Loop) (offset : Int64) :
    EncodeM Encoded :=
  if time < 0 then return .fail (.argument (.negativeTime time))
  else if bound < 0 then return .fail (.argument (.negativeBound bound))
  else if offset < 0 then return .fail (.argument (.negativeOffset offset))
  else if !loop.isSingle || loop.word < 0 || loop.word > bound || (bound > 0 && loop.word == bound)
  then return .fail (.argument (.loopNotBefore loop bound))
  else encodeLoopingBy keep bound loop offset f time

variable (m : Machine)

def onStraightBy (f : Formula) (bound offset : Int64) (fair : Bool) : EncodeM Encoded :=
  if fair && !m.fairness.isEmpty then fairnessConstraint m bound .none
  else straightBy keep f 0 bound offset

def onLoopBy (f : Formula) (bound : Int64) (l : Loop) (offset : Int64) (fair : Bool) :
    EncodeM Encoded := do
  let returns ← loopCondition (offset + bound) (offset + l.word)
  if returns.failed then return returns
  let fairly ←
    (if fair then fairnessConstraint m (offset + bound) ⟨offset + l.word⟩
    else pure ⟨Graph.truth, none⟩)
  if fairly.failed then return fairly
  let holds ← loopingBy keep f 0 bound l offset
  if holds.failed then return holds
  let inner ← onGraph (Graph.and fairly.expr holds.expr)
  return ⟨← onGraph (Graph.and returns.expr inner), none⟩

def onAllBy (f : Formula) (bound offset : Int64) (fair : Bool) : EncodeM Encoded := do
  let without ← onStraightBy keep m f bound offset fair
  if without.failed then return without
  let loops ← joinTimes Graph.or (fun l => onLoopBy keep m f bound ⟨l⟩ offset fair) (times 0 bound)
    Graph.falsity
  if loops.failed then return loops
  return ⟨← onGraph (Graph.or without.expr loops.expr), none⟩

def onPathsBy (f : Formula) (bound : Int64) (l : Loop) (offset : Int64) (fair : Bool) :
    EncodeM Encoded :=
  if l.isAll then onAllBy keep m f bound offset fair
  else if l.isNone then onStraightBy keep m f bound offset fair
  else onLoopBy keep m f bound (l.absolute bound) offset fair

def semanticsBy (f : Formula) (bound : Int64) (l : Loop) (offset : Int64) (fair : Bool) :
    EncodeM Encoded :=
  match checkSemantics bound l offset with
  | .error e => return .fail (.argument e)
  | .ok () => do onPathsBy keep m (← onTable (Table.normal f)) bound l offset fair

def violationBy (f : Formula) (bound : Int64) (l : Loop) : EncodeM Encoded :=
  match checkSemantics bound l 0 with
  | .error e => return .fail (.argument e)
  | .ok () => do onPathsBy keep m (← onTable (Table.negation f)) bound l 0 true

def problemBy (f : Formula) (bound : Int64) (l : Loop) : EncodeM Encoded := do
  let violated ← violationBy keep m f bound l
  if violated.failed then return violated
  let path ← onEncoding (m.path bound.toUInt64)
  return ⟨← onGraph (Graph.and path violated.expr), none⟩

end

theorem encodeStraightBy_remember (bound offset : Int64) (f : Formula) (time : Int64) :
    encodeStraightBy remember bound offset f time = encodeStraight bound offset f time := by
  have hbeyond : beyondBy remember bound offset = encodeStraight.beyond bound offset := rfl
  have hposition : positionBy remember = position := rfl
  induction f generalizing time with
  | atom e => rw [encodeStraightBy, encodeStraight, hposition]
  | unary op f ih =>
    refine induction_later bound (fun time hself => ?_) time
    rw [encodeStraightBy.eq_def, encodeStraight.eq_def, hposition]
    cases op with
    | eventually =>
      by_cases hlt : time < bound
      · simp only [hlt, dite_true, ih, hself hlt]
      · simp only [hlt, dite_false, ih, hbeyond]
    | _ => simp only [ih]
  | binary op f g ihf ihg =>
    refine induction_later bound (fun time hself => ?_) time
    rw [encodeStraightBy.eq_def, encodeStraight.eq_def, hposition]
    cases op with
    | untl | releases =>
      by_cases hlt : time < bound
      · simp only [hlt, dite_true, ihf, ihg, hself hlt]
      · simp only [hlt, dite_false, ihf, ihg, hbeyond]
    | _ => simp only [connective?, ihf, ihg]

theorem encodeLoopingBy_remember (bound : Int64) (loop : Loop) (offset : Int64) (f : Formula) :
    encodeLoopingBy remember bound loop offset f = encodeLooping bound loop offset f := by
  induction f with
  | atom e =>
    funext time
    rw [encodeLoopingBy, encodeLooping]
  | unary op f ih =>
    funext time
    rw [encodeLoopingBy, encodeLooping]
    cases op with
    | _ => simp only [ih]
  | binary op f g ihf ihg =>
    funext time
    rw [encodeLoopingBy, encodeLooping]
    cases op with
    | _ => simp only [connective?, ihf, ihg]

theorem straightBy_remember (f : Formula) (time bound offset : Int64) :
    straightBy remember f time bound offset = straight f time bound offset := by
  rw [straightBy, straight, encodeStraightBy_remember]

theorem loopingBy_remember (f : Formula) (time bound : Int64) (l : Loop) (offset : Int64) :
    loopingBy remember f time bound l offset = looping f time bound l offset := by
  rw [loopingBy, looping, encodeLoopingBy_remember]

section

variable (m : Machine) (f : Formula) (bound : Int64) (l : Loop) (offset : Int64) (fair : Bool)

theorem onStraightBy_remember :
    onStraightBy remember m f bound offset fair = onStraight m f bound offset fair := by
  rw [onStraightBy, onStraight, straightBy_remember]

theorem onLoopBy_remember :
    onLoopBy remember m f bound l offset fair = onLoop m f bound l offset fair := by
  unfold onLoopBy onLoop
  simp only [loopingBy_remember]
  cases fair <;> rfl

theorem onPathsBy_remember :
    onPathsBy remember m f bound l offset fair = onPaths m f bound l offset fair := by
  unfold onPathsBy onPaths onAllBy onAll
  simp only [onStraightBy_remember, onLoopBy_remember]

theorem semanticsBy_remember :
    semanticsBy remember m f bound l offset fair = semantics m f bound l offset fair := by
  unfold semanticsBy semantics
  cases checkSemantics bound l offset with
  | error e => rfl
  | ok _ => simp only [onPathsBy_remember]

theorem violationBy_remember : violationBy remember m f bound l = violation m f bound l := by
  unfold violationBy violation
  cases checkSemantics bound l 0 with
  | error e => rfl
  | ok _ => simp only [onPathsBy_remember]

theorem problemBy_remember : problemBy remember m f bound l = problem m f bound l := by
  rw [problemBy, problem, violationBy_remember]

end

end Encoder

end Lasso
