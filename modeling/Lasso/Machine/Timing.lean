import Lasso.Machine.Encoding

/-! # Expressions in time

Constraints are written over current and next forms.  They are moved in time by rebuilding them
with other variables at the leaves.
-/

namespace Lasso

set_option autoImplicit false

namespace Encoding

abbrev Rebuild := StateT (Std.HashMap Nat Lit) (StateM Encoding)

def rebuildNode (leaf : Nat → StateM Encoding Lit) (v : Nat) : Rebuild Lit := do
  if v = 1 then return Graph.truth
  match (← get)[v]? with
  | some l => return l
  | none =>
    let l ← match (← getThe Encoding).graph.operands? v with
      | none => leaf v
      | some ⟨(a, b), _⟩ => do
        let l ← rebuildNode leaf a.var
        let r ← rebuildNode leaf b.var
        onGraph (Graph.and (l.flipIf a.negated) (r.flipIf b.negated))
    modify (·.insert v l)
    return l
termination_by v
decreasing_by all_goals simp_all

def rebuild (leaf : Nat → StateM Encoding Lit) (l : Lit) : StateM Encoding Lit := do
  return ((← (rebuildNode leaf l.var).run' {})).flipIf l.negated

/-- What a free variable becomes at a time: the variable then, or one step later for a next form.
Other variables stay. -/
def leafAt (time : UInt64) (v : Nat) : StateM Encoding Lit := do
  match (← get).origins[v]? with
  | some (.current index) => variableAt index time
  | some (.next index) => variableAt index (time + 1)
  | _ => return .pos v

def instantiate (l : Lit) (time : UInt64) : StateM Encoding Lit := rebuild (leafAt time) l

def intervalLength (first last : UInt64) : Nat :=
  if first ≤ last then (last - first).toNat + 1 else 0

def joinFrom (join : Lit → Lit → StateM Graph Lit) (l : Lit) :
    Nat → UInt64 → Lit → StateM Encoding Lit
  | 0, _, result => return result
  | count + 1, time, result => do
    let now ← instantiate l time
    let result ← onGraph (join result now)
    joinFrom join l count (time + 1) result

def sometime (l : Lit) (first last : UInt64) : StateM Encoding Lit :=
  joinFrom Graph.or l (intervalLength first last) first Graph.falsity

def always (l : Lit) (first last : UInt64) : StateM Encoding Lit :=
  joinFrom Graph.and l (intervalLength first last) first Graph.truth

inductive ShiftError where
  | nestedNext (name : String)
  | inputVariable (name : String)

/-- What stands in the way of shifting a free variable. -/
def shiftError? (e : Encoding) (v : Nat) : Option ShiftError :=
  match e.origins[v]? with
  | some (.next index) => some (.nestedNext (e.nameOfIndex index))
  | some (.current index) =>
    match e.vars[index]? with
    | some x => if x.isInput then some (.inputVariable x.name) else none
    | none => none
  | _ => none

def leafNext (v : Nat) : StateM Encoding Lit := do
  let e ← get
  match e.origins[v]? with
  | some (.current index) =>
    match e.vars[index]? with
    | some { role := .state next, .. } => return next
    | _ => return .pos v
  | _ => return .pos v

/-- An expression over current forms as the same expression over next forms.  The last variable
without a next form is to blame if there is none. -/
def shift (l : Lit) : StateM Encoding (Except ShiftError Lit) := do
  let e ← get
  let shifted ← rebuild leafNext l
  match ((e.graph.support l).filterMap fun m => e.shiftError? m.var).getLast? with
  | some error => return .error error
  | none => return .ok shifted

end Encoding

end Lasso
