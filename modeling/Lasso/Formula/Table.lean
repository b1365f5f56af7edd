import Std.Data.DHashMap
import Std.Data.HashMap
import Std.Data.HashSet
import Lasso.Formula.NormalForm

/-! # Formula tables

A table holds every formula that was made through it, so that equal formulas are kept only once.
Atomic propositions are identified by their printed text, where the first expression with a text
stands for all.  A normal form can be much larger than the number of its distinct parts, so it is
made part by part, and no part twice.

A formula is a value here, and equal formulas cannot be told apart.  Where it matters which of two
nodes a look-up gives, tables of numbered nodes come to the same formulas.
-/

namespace Lasso

set_option autoImplicit false

/-- The atomic propositions by text, and the other formulas. -/
structure Table where
  atoms : Std.HashMap String Expr
  compounds : Std.HashSet Formula

inductive MakeError where
  | atom
  | missingOperand (op : Operator)
  | operandCount (op : Operator)
  deriving DecidableEq

def MakeError.message : MakeError → String
  | .atom => "atoms must be constructed from expressions"
  | .missingOperand op => "missing operand for " ++ op.name
  | .operandCount op => "incorrect number of operands for " ++ op.name

namespace Table

def empty : Table := ⟨{}, {}⟩

instance : EmptyCollection Table := ⟨empty⟩

def size (t : Table) : Nat := t.atoms.size + t.compounds.size

def atom (e : Expr) : StateM Table Formula := fun t =>
  match t.atoms[e.text]? with
  | some first => (.atom first, t)
  | none => (.atom e, { t with atoms := t.atoms.insert e.text e })

def named (name : String) : StateM Table Formula := atom (.symbol () name)

/-- Adds a formula whose operands are in the table, which is then the one in the table. -/
def add (f : Formula) : StateM Table Formula := fun t =>
  match t.compounds.get? f with
  | some g => (g, t)
  | none => (f, { t with compounds := t.compounds.insert f })

theorem eq_of_get?_eq_some {s : Std.HashSet Formula} {f g : Formula} (h : s.get? f = some g) :
    g = f := by
  have := Std.HashSet.get?_beq (m := s) (k := f)
  simpa [h] using this

theorem add_fst (f : Formula) (t : Table) : (add f t).1 = f := by
  unfold add
  split
  · exact eq_of_get?_eq_some ‹_›
  · rfl

def intern : Formula → StateM Table Formula
  | .atom e => atom e
  | .unary op f => do
    match (← get).compounds.get? (.unary op f) with
    | some g => return g
    | none => add (.unary op (← intern f))
  | .binary op f g => do
    match (← get).compounds.get? (.binary op f g) with
    | some h => return h
    | none =>
      let f ← intern f
      let g ← intern g
      add (.binary op f g)

def make (op : Operator) (left right : Option Formula) : StateM Table (Except MakeError Formula) :=
  match op, left, right with
  | .atom, _, _ => return .error .atom
  | op, none, _ => return .error (.missingOperand op)
  | .unary op, some f, none => .ok <$> add (.unary op f)
  | .binary op, some f, some g => .ok <$> add (.binary op f g)
  | op, some _, _ => return .error (.operandCount op)

/-- A formula that is equal to another one. -/
abbrev Copy (f : Formula) := { g : Formula // g = f }

/-- The normal forms that are known, of formulas and of their negations. -/
abbrev Normals := Std.DHashMap (Formula × Bool) fun k => Copy (k.1.normalise k.2)

abbrev NormalM := StateT Normals (StateM Table)

def share {f : Formula} (g : Formula) (h : g = f) : NormalM (Copy f) :=
  fun known t =>
    let r := add g t
    ((⟨r.1, (add_fst g t).trans h⟩, known), r.2)

def shareNegated {f : Formula} (negated : Bool) (g : Copy f) :
    NormalM (Copy (f.negateIf negated)) :=
  match negated with
  | false => return g
  | true => share (.unary .not g.1) (by rw [g.2]; rfl)

/-- The normal form that is known for a formula or its negation, or else made for it. -/
def once (f : Formula) (negated : Bool) (make : NormalM (Copy (f.normalise negated))) :
    NormalM (Copy (f.normalise negated)) := do
  match (← get).get? (f, negated) with
  | some g => return g
  | none =>
    let g ← make
    modify (·.insert (f, negated) g)
    return g

/-- Makes the normal form of a formula, or of its negation. -/
def normalise (negated : Bool) : (f : Formula) → NormalM (Copy (f.normalise negated))
  | .atom e => shareNegated negated ⟨.atom e, rfl⟩
  | .unary op f => once (.unary op f) negated <|
    match h : op.rule with
    | .negation => do
      let g ← normalise (!negated) f
      return ⟨g.1, by simp [Formula.normalise, h, g.2]⟩
    | .dual op' => do
      let g ← normalise negated f
      share (.unary (if negated then op' else op) g.1) (by simp [Formula.normalise, h, g.2])
    | .kept => do
      let g ← normalise false f
      let g ← share (.unary op g.1) (by rw [g.2])
      let g ← shareNegated negated g
      return ⟨g.1, by simp [Formula.normalise, h, g.2]⟩
  | .binary op f g => once (.binary op f g) negated <|
    match h : op.rule with
    | .dual op' => do
      let p ← normalise negated f
      let q ← normalise negated g
      share (.binary (if negated then op' else op) p.1 q.1)
        (by simp [Formula.normalise, h, p.2, q.2])
    | .implication => do
      let p ← normalise (!negated) f
      let q ← normalise negated g
      share (.binary (if negated then .and else .or) p.1 q.1)
        (by simp [Formula.normalise, h, p.2, q.2])
    | .comparison different => do
      let p ← normalise false f
      let q ← normalise (negated != different) g
      let p' ← normalise true f
      let q' ← normalise (negated == different) g
      let both ← share (.binary .and p.1 q.1) rfl
      let neither ← share (.binary .and p'.1 q'.1) rfl
      share (.binary .or both.1 neither.1)
        (by
          simp [Formula.normalise, Formula.eitherPair, h, both.2, neither.2, p.2, q.2, p'.2, q'.2])
    | .kept => do
      let p ← normalise false f
      let q ← normalise false g
      let r ← share (.binary op p.1 q.1) (by rw [p.2, q.2])
      let r ← shareNegated negated r
      return ⟨r.1, by simp [Formula.normalise, h, r.2]⟩

def normal (f : Formula) : StateM Table Formula := do
  return (← (normalise false f).run' {}).1

def negation (f : Formula) : StateM Table Formula := do
  return (← (normalise true f).run' {}).1

end Table

end Lasso
