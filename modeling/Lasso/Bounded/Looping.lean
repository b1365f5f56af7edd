import Lasso.Bounded.Encoder

/-! # Paths with a loop

A path that loops from its bound back to an earlier time stands for an infinite path, whose
positions from the earlier one of a time and the loop up to the bound are all there is to see.
-/

namespace Lasso

set_option autoImplicit false

namespace Encoder

def timesFrom (first : Int64) : Nat → List Int64
  | 0 => []
  | count + 1 => first :: timesFrom (first + 1) count

def times (first last : Int64) : List Int64 := timesFrom first (last.toInt - first.toInt).toNat

/-- Joins the encodings at some times onto a result, up to the first that fails. -/
def joinTimes (join : Lit → Lit → StateM Graph Lit) (encode : Int64 → EncodeM Encoded) :
    List Int64 → Lit → EncodeM Encoded
  | [], result => return ⟨result, none⟩
  | time :: rest, result => do
    let r ← encode time
    if r.failed then return r
    joinTimes join encode rest (← onGraph (join result r.expr))

/-- Unfolds an operator with a goal and a condition for waiting backwards over some times, up to
the first that fails. -/
def unfoldTimes (outer inner : Lit → Lit → StateM Graph Lit) (goal wait : Int64 → EncodeM Encoded) :
    List Int64 → Lit → EncodeM Encoded
  | [], result => return ⟨result, none⟩
  | time :: rest, result => do
    let q ← goal time
    let p ← wait time
    match q.error?.or p.error? with
    | some e => return .fail e
    | none =>
      let later ← onGraph (inner p.expr result)
      unfoldTimes outer inner goal wait rest (← onGraph (outer q.expr later))

/-- A formula at a time of a path that loops from `bound` back to `loop`. -/
def encodeLooping (bound : Int64) (loop : Loop) (offset : Int64) : Formula → Int64 → EncodeM Encoded
  | f, time => remember ⟨f, time, bound, loop, offset⟩ <|
    if bound = 0 ∨ time > bound then return ⟨Graph.falsity, none⟩
    else
      let first := min time loop.word
      match f with
      | .atom e => proposition e (time + offset)
      | .unary .not f => return (← encodeLooping bound loop offset f time).not
      | .unary .next f => encodeLooping bound loop offset f (loop.successor bound time)
      | .unary .globally f =>
        joinTimes Graph.and (encodeLooping bound loop offset f) (times first bound) Graph.truth
      | .unary .eventually f =>
        joinTimes Graph.or (encodeLooping bound loop offset f) (times first bound) Graph.falsity
      | .unary op f => return .fail (.unsupported (.unary op f))
      | .binary .untl f g =>
        unfoldTimes Graph.or Graph.and (encodeLooping bound loop offset g)
          (encodeLooping bound loop offset f) (times first bound).reverse Graph.falsity
      | .binary .releases f g => do
        let last ← encodeLooping bound loop offset g (bound - 1)
        if last.failed then return last
        unfoldTimes Graph.and Graph.or (encodeLooping bound loop offset g)
          (encodeLooping bound loop offset f) (times first (bound - 1)).reverse last.expr
      | .binary op f g =>
        match connective? op with
        | some join =>
          both join (encodeLooping bound loop offset f time)
            (encodeLooping bound loop offset g time)
        | none => return .fail (.unsupported (.binary op f g))

def looping (f : Formula) (time bound : Int64) (loop : Loop) (offset : Int64) : EncodeM Encoded :=
  if time < 0 then return .fail (.argument (.negativeTime time))
  else if bound < 0 then return .fail (.argument (.negativeBound bound))
  else if offset < 0 then return .fail (.argument (.negativeOffset offset))
  else if !loop.isSingle || loop.word < 0 || loop.word > bound || (bound > 0 && loop.word == bound)
  then return .fail (.argument (.loopNotBefore loop bound))
  else encodeLooping bound loop offset f time

end Encoder

end Lasso
