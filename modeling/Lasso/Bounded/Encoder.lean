import Lasso.Bounded.Cache
import Lasso.Formula.Table
import Lasso.Machine.Basic
import Lasso.Machine.Condition

/-! # Encoders

An encoder turns formulas into expressions over timed variables, which hold exactly on the bounded
paths that satisfy the formula.  Encodings are remembered; a failed one is not.
-/

namespace Lasso

set_option autoImplicit false

inductive EncodeError where
  | argument (e : ArgumentError)
  /-- The operator at the top of a formula has no bounded encoding. -/
  | unsupported (f : Formula)
  /-- A formula about the past cannot be checked. -/
  | uncheckable (f : Formula)
  /-- A key is bound to another expression already. -/
  | inconsistent (key : Key)
  /-- An atomic proposition is no condition. -/
  | condition (e : ConditionError Unit)

namespace EncodeError

def unsupportedMessage (f : Formula) : String :=
  "unsupported operator " ++ f.operator.name ++ " in " ++ f.text

def message : EncodeError → String
  | .argument e => e.message
  | .unsupported f => unsupportedMessage f
  | .uncheckable f => "cannot check " ++ f.text ++ ": " ++ unsupportedMessage f
  | .inconsistent k =>
    "inconsistent encoding of " ++ k.formula.text ++ " (time " ++ Loop.number k.time ++
      ", bound " ++ Loop.number k.bound ++ ", loop " ++ k.loop.text ++ ", offset " ++
      Loop.number k.offset ++ ")"
  | .condition e => e.message

end EncodeError

/-- The outcome of an encoding.  If it failed, the expression is only a placeholder with which the
surrounding constructions go on. -/
structure Encoded where
  expr : Lit
  error? : Option EncodeError := none

namespace Encoded

def fail (e : EncodeError) : Encoded := ⟨Graph.falsity, some e⟩

def failed (r : Encoded) : Bool := r.error?.isSome

def not (r : Encoded) : Encoded := { r with expr := r.expr.not }

def toExcept (r : Encoded) : Except EncodeError Lit :=
  match r.error? with
  | none => .ok r.expr
  | some e => .error e

end Encoded

structure Encoder where
  encoding : Encoding
  table : Table
  cache : Cache

abbrev EncodeM := StateM Encoder

namespace Encoder

def onEncoding {α : Type} (m : StateM Encoding α) : EncodeM α := fun s =>
  match s with
  | ⟨encoding, table, cache⟩ =>
    let (a, encoding) := m encoding
    (a, ⟨encoding, table, cache⟩)

def onGraph {α : Type} (m : StateM Graph α) : EncodeM α := onEncoding (Encoding.onGraph m)

def onTable {α : Type} (m : StateM Table α) : EncodeM α := fun s =>
  match s with
  | ⟨encoding, table, cache⟩ =>
    let (a, table) := m table
    (a, ⟨encoding, table, cache⟩)

def onCache {α : Type} (m : StateM Cache α) : EncodeM α := fun s =>
  match s with
  | ⟨encoding, table, cache⟩ =>
    let (a, cache) := m cache
    (a, ⟨encoding, table, cache⟩)

def remember (key : Key) (body : EncodeM Encoded) : EncodeM Encoded := do
  match ← onCache (Cache.find key) with
  | some l => return ⟨l, none⟩
  | none =>
    let r ← body
    if r.failed then return r
    if ← onCache (Cache.bind key r.expr) then return r
    return ⟨r.expr, some (.inconsistent key)⟩

def proposition (e : Expr) (time : Int64) : EncodeM Encoded := do
  match ← onEncoding (Encoding.condition false e).run with
  | .error err => return .fail (.condition err)
  | .ok l => return ⟨← onEncoding (Encoding.instantiate l time.toUInt64), none⟩

def connective? : BinaryOp → Option (Lit → Lit → StateM Graph Lit)
  | .and => some Graph.and
  | .or => some Graph.or
  | .xor => some Graph.xor
  | .implies => some Graph.implies
  | .iff => some Graph.iff
  | _ => none

/-- Joins two encodings, of which the second is not made if the first fails. -/
def both (join : Lit → Lit → StateM Graph Lit) (left right : EncodeM Encoded) :
    EncodeM Encoded := do
  let l ← left
  if l.failed then return l
  let r ← right
  if r.failed then return r
  return ⟨← onGraph (join l.expr r.expr), none⟩

def clear (s : Encoder) : Encoder := { s with cache := s.cache.clear }

end Encoder

end Lasso
