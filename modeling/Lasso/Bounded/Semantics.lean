import Lasso.Bounded.Straight
import Lasso.Bounded.Looping

/-! # Bounded semantics

A formula holds on a bounded path if the path has no loop and satisfies it as it stands, or if the
path loops back to an earlier time and the infinite path so described satisfies it.  Formulas are
put into negation normal form first, since what is known of a path without a loop cannot be
negated.  With fairness obligations only fair paths count, which always loop.
-/

namespace Lasso

set_option autoImplicit false

namespace Encoder

/-- Adds to a result that some variables have the same value at two times. -/
def sameAt (source target : UInt64) : List Variable → Lit → StateM Encoding Lit
  | [], result => return result
  | v :: vs, result => do
    let before ← Encoding.variableAt v.index target
    let after ← Encoding.variableAt v.index source
    let same ← Encoding.onGraph (Graph.iff before after)
    sameAt source target vs (← Encoding.onGraph (Graph.and result same))

/-- The state at one time is that of an earlier time.  Inputs are not part of the state. -/
def loopCondition (source target : Int64) : EncodeM Encoded := do
  if source < 0 || target < 0 || target > source then
    return .fail (.argument (.returnAfter target source))
  let vs := (← get).encoding.stateVariables
  return ⟨← onEncoding (sameAt source.toUInt64 target.toUInt64 vs Graph.truth), none⟩

/-- Adds to a result that some obligations hold at some time of an interval each. -/
def fairWithin (first last : UInt64) : List Lit → Lit → StateM Encoding Lit
  | [], result => return result
  | obligation :: rest, result => do
    let holds ← Encoding.sometime obligation first last
    fairWithin first last rest (← Encoding.onGraph (Graph.and result holds))

/-- Every fairness obligation holds somewhere on the loop.  A path without a loop is never fair,
while a path of length zero is. -/
def fairnessConstraint (m : Machine) (bound : Int64) (l : Loop) : EncodeM Encoded := do
  if l.isNone then return ⟨Graph.falsity, none⟩
  if bound = 0 then return ⟨Graph.truth, none⟩
  if bound < 0 || !l.isSingle || l.word < 0 || l.word > bound then
    return .fail (.argument (.loopAfter l bound))
  let fair := fairWithin l.word.toUInt64 (bound - 1).toUInt64 m.fairness.toList Graph.truth
  return ⟨← onEncoding fair, none⟩

/-- The bound, loop and offset of a semantics belong together if, besides, a single loop lies
strictly before the bound. -/
def checkSemantics (bound : Int64) (l : Loop) (offset : Int64) : Except ArgumentError Unit := do
  l.check bound
  if offset < 0 then throw (.negativeOffset offset)
  if l.isSingle && (l.absolute bound).word ≥ bound then throw (.loopNotBefore l bound)

def onStraight (m : Machine) (f : Formula) (bound offset : Int64) (fair : Bool) : EncodeM Encoded :=
  if fair && !m.fairness.isEmpty then fairnessConstraint m bound .none
  else straight f 0 bound offset

def onLoop (m : Machine) (f : Formula) (bound : Int64) (l : Loop) (offset : Int64) (fair : Bool) :
    EncodeM Encoded := do
  let returns ← loopCondition (offset + bound) (offset + l.word)
  if returns.failed then return returns
  let fairly ←
    if fair then fairnessConstraint m (offset + bound) ⟨offset + l.word⟩
    else pure ⟨Graph.truth, none⟩
  if fairly.failed then return fairly
  let holds ← looping f 0 bound l offset
  if holds.failed then return holds
  let inner ← onGraph (Graph.and fairly.expr holds.expr)
  return ⟨← onGraph (Graph.and returns.expr inner), none⟩

def onAll (m : Machine) (f : Formula) (bound offset : Int64) (fair : Bool) : EncodeM Encoded := do
  let without ← onStraight m f bound offset fair
  if without.failed then return without
  let loops ← joinTimes Graph.or (fun l => onLoop m f bound ⟨l⟩ offset fair) (times 0 bound)
    Graph.falsity
  if loops.failed then return loops
  return ⟨← onGraph (Graph.or without.expr loops.expr), none⟩

def onPaths (m : Machine) (f : Formula) (bound : Int64) (l : Loop) (offset : Int64) (fair : Bool) :
    EncodeM Encoded :=
  if l.isAll then onAll m f bound offset fair
  else if l.isNone then onStraight m f bound offset fair
  else onLoop m f bound (l.absolute bound) offset fair

def semantics (m : Machine) (f : Formula) (bound : Int64) (l : Loop) (offset : Int64)
    (fair : Bool) : EncodeM Encoded :=
  match checkSemantics bound l offset with
  | .error e => return .fail (.argument e)
  | .ok () => do onPaths m (← onTable (Table.normal f)) bound l offset fair

/-- The negation of a formula on the fair paths that a loop describes. -/
def violation (m : Machine) (f : Formula) (bound : Int64) (l : Loop) : EncodeM Encoded :=
  match checkSemantics bound l 0 with
  | .error e => return .fail (.argument e)
  | .ok () => do onPaths m (← onTable (Table.negation f)) bound l 0 true

/-- The machine has a path of a length that violates a formula. -/
def problem (m : Machine) (f : Formula) (bound : Int64) (l : Loop) : EncodeM Encoded := do
  let violated ← violation m f bound l
  if violated.failed then return violated
  let path ← onEncoding (m.path bound.toUInt64)
  return ⟨← onGraph (Graph.and path violated.expr), none⟩

end Encoder

end Lasso
