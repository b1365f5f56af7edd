import Std.Data.HashMap
import Lasso.Bounded.Loop
import Lasso.Formula.Basic
import Lasso.Graph.Literal

/-! # The cache of encodings

A key says which encoding is meant.  Once a key is bound it keeps its expression until the cache is
cleared.  Lookups are counted.
-/

namespace Lasso

set_option autoImplicit false

/-- A formula at a time of paths of a length and a shape, shifted by an offset. -/
structure Key where
  formula : Formula
  time : Int64
  bound : Int64
  loop : Loop
  offset : Int64
  deriving DecidableEq, Hashable

structure Cache where
  entries : Std.HashMap Key Lit
  hits : Nat
  misses : Nat

namespace Cache

def empty : Cache := ⟨{}, 0, 0⟩

instance : EmptyCollection Cache := ⟨empty⟩

def size (c : Cache) : Nat := c.entries.size

def find (key : Key) : StateM Cache (Option Lit) := fun c =>
  match c.entries[key]? with
  | some l => (some l, { c with hits := c.hits + 1 })
  | none => (none, { c with misses := c.misses + 1 })

/-- Binds a key, which fails if it is bound to another expression. -/
def bind (key : Key) (l : Lit) : StateM Cache Bool := fun c =>
  match c.entries[key]? with
  | some m => (m = l, c)
  | none => (true, { c with entries := c.entries.insert key l })

/-- Forgets all entries, but not the counts. -/
def clear (c : Cache) : Cache := { c with entries := {} }

end Cache

end Lasso
