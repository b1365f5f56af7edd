import Lasso.Sat.Conflict

/-! # Conflict-driven search

Variables are decided in the order of their part in the latest conflicts, and each conflict adds a
clause that would have prevented it.  From time to time the search starts over with the clauses
learnt, and drops those that tie together many levels.  It answers only with a model that satisfies
the problem or with the empty clause, and gives up when its budget of steps is used.
-/

namespace Lasso.Sat

set_option autoImplicit false

/-- The distance between restarts in a sequence in which every distance comes twice before the
double of it: one, one, two, one, one, two, four and so on. -/
structure Pace where
  /-- The number of the current rise from one. -/
  rise : Nat
  units : Nat

namespace Pace

/-- A rise ends with the greatest power of two that divides its number. -/
def next (p : Pace) : Pace :=
  if p.rise % (2 * p.units) = 0 then ⟨p.rise, 2 * p.units⟩ else ⟨p.rise + 1, 1⟩

end Pace

structure Plan where
  pace : Pace
  /-- The number of conflicts before the next restart. -/
  conflicts : Nat
  /-- The number of learnt clauses since some were dropped last. -/
  learnt : Nat
  /-- The number of learnt clauses at which some are dropped. -/
  limit : Nat

namespace Plan

def unit : Nat := 50

def start : Plan := ⟨⟨1, 1⟩, unit, 0, 2000⟩

def restart (p : Plan) : Plan :=
  let pace := p.pace.next
  { p with pace, conflicts := unit * pace.units }

def reduce (p : Plan) : Plan := { p with learnt := 0, limit := p.limit + 300 }

def learn (p : Plan) : Plan := { p with conflicts := p.conflicts - 1, learnt := p.learnt + 1 }

end Plan

namespace Search

variable {f : Cnf}

/-- Drops the worse half of the clauses from an index on, but for those of two levels.  No
decision may be left. -/
def reduce (s : Search f) (first : Nat) : Search f :=
  let spread (i : Nat) : Option (Nat × Nat) :=
    match s.rules.getD i none with
    | some r => if r.spread ≤ 2 then none else some (r.spread, i)
    | none => none
  let learnt := (List.range' first (s.rules.size - first)).filterMap spread
  let learnt := learnt.mergeSort fun a b => b.1 < a.1 || a.1 = b.1 && a.2 ≤ b.2
  let worse := learnt.take (learnt.length / 2)
  { s with rules := worse.foldl (fun rules (_, i) => rules.setIfInBounds i none) s.rules }

/-- Goes on from a state whose trail is propagated up to a position.  The clauses below `first` are
those of the problem. -/
def run (first : Nat) (s : Search f) (plan : Plan) (head : Nat) : Nat → Option (Verdict f)
  | 0 => none
  | budget + 1 =>
    let steps := s.levels.size + 1
    match s.propagate head steps with
    | (s, some conflict) =>
      if s.decisions.size = 0 then s.refute? conflict
      else
        match s.resolve? conflict with
        | none => none
        | some s =>
          let head := s.trail.size - 1
          run first s plan.learn head budget
    | (s, none) =>
      if plan.conflicts = 0 then
        let s := s.backtrack 0
        let head := s.trail.size
        let plan := plan.restart
        if plan.limit ≤ plan.learnt then
          run first (s.reduce first) plan.reduce head budget
        else run first s plan head budget
      else
        match s.choose steps with
        | (s, some v) =>
          let head := s.trail.size
          run first (s.decide v) plan head budget
        | (s, none) => if h : f.eval s.assignment = true then some (.sat _ h) else none

def load (s : Search f) (r : Rule f) : Search f :=
  match r.codes with
  | a :: b :: _ => s.addRule r a b
  | _ => s

def loadUnits (s : Search f) : List (Rule f) → Search f × Option (Rule f)
  | [] => (s, none)
  | r :: rs =>
    match r.codes with
    | [] => (s, some r)
    | [l] =>
      match s.truth l with
      | .unset => (s.force l r).loadUnits rs
      | .holds => s.loadUnits rs
      | .fails => (s, some r)
    | _ => s.loadUnits rs

def search (f : Cnf) (budget : Nat) : Option (Verdict f) :=
  let rules := f.attach.map fun c => Rule.ofFact (.ofMem c.val c.property) 0
  let s := rules.foldl load (blank f (f.maxVar + 1))
  let first := s.rules.size
  match s.loadUnits rules with
  | (s, some conflict) => s.refute? conflict
  | (s, none) => run first s .start 0 budget

end Search

end Lasso.Sat
