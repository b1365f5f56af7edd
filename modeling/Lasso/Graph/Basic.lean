import Std.Data.HashMap
import Lasso.Graph.Literal

/-! # And-inverter graphs

Boolean expressions are literals over the nodes of one graph, whose gates are conjunctions of two
literals.  Nodes are only ever added, and a gate is added only if there is none with the same
operands.  So an expression keeps its meaning as the graph grows, and building an expression again
gives the same literal.
-/

namespace Lasso

set_option autoImplicit false

inductive Node where
  | constant
  | input
  | gate (a b : Lit)
  deriving DecidableEq, Repr, Inhabited

structure Graph where
  /-- The nodes by number.  Number one is the constant, and zero is not in use. -/
  nodes : Array Node
  gates : Std.HashMap (Lit × Lit) Nat
  inputs : Nat

namespace Graph

def empty : Graph := ⟨#[.constant, .constant], {}, 0⟩

instance : EmptyCollection Graph := ⟨empty⟩
instance : Inhabited Graph := ⟨empty⟩

def size (g : Graph) : Nat := g.nodes.size

def truth : Lit := ⟨1, false⟩

def falsity : Lit := ⟨1, true⟩

def ofBool (b : Bool) : Lit := ⟨1, !b⟩

/-- The node with a given number; a number that is not in use stands for a free variable. -/
def node (g : Graph) (v : Nat) : Node := g.nodes[v]?.getD .input

def operands? (g : Graph) (v : Nat) : Option { p : Lit × Lit // p.1.var < v ∧ p.2.var < v } :=
  match g.node v with
  | .gate a b => if h : a.var < v ∧ b.var < v then some ⟨(a, b), h⟩ else none
  | _ => none

def isConstant (l : Lit) : Bool := l.var == 1

def isInput (g : Graph) (l : Lit) : Bool := !isConstant l && (g.operands? l.var).isNone

def value (g : Graph) (ρ : Assignment) (v : Nat) : Bool :=
  if v = 1 then true
  else match g.operands? v with
    | none => ρ v
    | some ⟨(a, b), _⟩ => (a.negated ^^ g.value ρ a.var) && (b.negated ^^ g.value ρ b.var)
termination_by v
decreasing_by all_goals simp_all

def eval (g : Graph) (ρ : Assignment) (l : Lit) : Bool := l.negated ^^ g.value ρ l.var

def values (g : Graph) (ρ : Assignment) : Array Bool :=
  g.nodes.foldl (fun (vals : Array Bool) node =>
    vals.push <| match node with
      | .constant => true
      | .input => ρ vals.size
      | .gate a b =>
        (a.negated ^^ vals.getD a.var false) && (b.negated ^^ vals.getD b.var false)) #[]

def input : StateM Graph Lit := fun g =>
  (.pos g.size, { g with nodes := g.nodes.push .input, inputs := g.inputs + 1 })

def gate (a b : Lit) : StateM Graph Lit := fun g =>
  match g.gates[(a, b)]? with
  | some v => (.pos v, g)
  | none =>
    let v := g.size
    (.pos v, { g with nodes := g.nodes.push (.gate a b), gates := g.gates.insert (a, b) v })

def and (a b : Lit) : StateM Graph Lit :=
  if a = b then return a
  else if a = b.not then return falsity
  else
    let (a, b) := if a.code < b.code then (a, b) else (b, a)
    if a = falsity then return falsity
    else if a = truth then return b
    else gate a b

def or (a b : Lit) : StateM Graph Lit := do
  return (← and a.not b.not).not

def implies (a b : Lit) : StateM Graph Lit := or a.not b

def xor (a b : Lit) : StateM Graph Lit := do
  let left ← and a b.not
  let right ← and a.not b
  or left right

def iff (a b : Lit) : StateM Graph Lit := do
  return (← xor a b).not

def ite (c a b : Lit) : StateM Graph Lit := do
  let left ← and c a
  let right ← and c.not b
  or left right

def all (ls : List Lit) : StateM Graph Lit := ls.foldlM and truth

def any (ls : List Lit) : StateM Graph Lit := ls.foldlM or falsity

end Graph

end Lasso
