import Lasso.Machine.Timing
import Lasso.Formula.Basic

/-! # Machines

A finite-state machine is given by constraints on its initial states, on all states and on
transitions, and by fairness obligations, all of them untimed expressions over its variables.
Only the transition constraint mentions next forms.
-/

namespace Lasso

set_option autoImplicit false

structure Spec where
  name : String
  formula : Formula

structure Invariant where
  name : String
  expr : Lit

structure Machine where
  init : Lit := Graph.truth
  invar : Lit := Graph.truth
  trans : Lit := Graph.truth
  fairness : Array Lit := #[]
  specs : Array Spec := #[]
  invariants : Array Invariant := #[]

namespace Machine

def addInit (m : Machine) (l : Lit) : StateM Encoding Machine := do
  return { m with init := ← Encoding.onGraph (Graph.and m.init l) }

def addInvar (m : Machine) (l : Lit) : StateM Encoding Machine := do
  return { m with invar := ← Encoding.onGraph (Graph.and m.invar l) }

def addTrans (m : Machine) (l : Lit) : StateM Encoding Machine := do
  return { m with trans := ← Encoding.onGraph (Graph.and m.trans l) }

def addFairness (m : Machine) (l : Lit) : Machine := { m with fairness := m.fairness.push l }

def addSpec (m : Machine) (name : String) (f : Formula) : Machine :=
  { m with specs := m.specs.push ⟨name, f⟩ }

def addInvariant (m : Machine) (name : String) (l : Lit) : Machine :=
  { m with invariants := m.invariants.push ⟨name, l⟩ }

def unrollFrom (m : Machine) : Nat → UInt64 → Lit → StateM Encoding Lit
  | 0, _, result => return result
  | count + 1, time, result => do
    let trans ← Encoding.instantiate m.trans time
    let invar ← Encoding.instantiate m.invar (time + 1)
    let step ← Encoding.onGraph (Graph.and trans invar)
    let result ← Encoding.onGraph (Graph.and result step)
    m.unrollFrom count (time + 1) result

def unroll (m : Machine) (first last : UInt64) : StateM Encoding Lit := do
  let invar ← Encoding.instantiate m.invar first
  m.unrollFrom (if first < last then (last - first).toNat else 0) first invar

def path (m : Machine) (length : UInt64) : StateM Encoding Lit := do
  let init ← Encoding.instantiate m.init 0
  let steps ← m.unroll 0 length
  Encoding.onGraph (Graph.and init steps)

end Machine

end Lasso
