import Lasso.Sat.Entailed
import Lasso.Sat.Queue

/-! # The state of a search

Literals are made true one after another, by decision or because a clause has no other literal
left.  A clause watches two of its literals and is looked at when one of them becomes false.
Literals go by their codes, so that a literal and its negation differ in the last bit.
-/

namespace Lasso

set_option autoImplicit false

namespace Lit

def ofCode (n : Nat) : Lit := ⟨n / 2, n % 2 = 1⟩

end Lit

namespace Sat

def opposite (n : Nat) : Nat := n ^^^ 1

inductive Truth where
  | unset
  | holds
  | fails
  deriving DecidableEq

/-- An entailed clause as the search uses it. -/
structure Rule (f : Cnf) where
  fact : Entailed f
  codes : List Nat
  /-- The number of levels in the clause when it was learnt, which is low for a useful clause. -/
  spread : Nat

def Rule.ofFact {f : Cnf} (fact : Entailed f) (spread : Nat) : Rule f :=
  ⟨fact, (fact.clause.map Lit.code).eraseDups, spread⟩

/-- The state of the search.  What belongs to a variable is found at its number, and what belongs
to a literal at its code. -/
structure Search (f : Cnf) where
  /-- The clauses, with a gap for each one that was dropped. -/
  rules : Array (Option (Rule f))
  /-- The sum of the two literals that each clause watches, by which one gives the other. -/
  pairs : Array Nat
  /-- The clauses that watch a literal. -/
  watchers : Array (List Nat)
  truths : Array Truth
  /-- The number of decisions before a variable got its value. -/
  levels : Array Nat
  /-- The length of the trail before a variable got its value. -/
  positions : Array Nat
  /-- The clause that forced a variable, if it was not decided. -/
  reasons : Array (Option (Rule f))
  /-- The literal of a variable that was true last. -/
  recent : Array Nat
  /-- The literals made true, in order. -/
  trail : Array Nat
  /-- The length of the trail at each decision. -/
  decisions : Array Nat
  queue : Queue
  /-- Variables that the conflict at hand has led to. -/
  seen : Array Bool

namespace Search

variable {f : Cnf}

def truth (s : Search f) (l : Nat) : Truth := s.truths.getD l .unset

def level (s : Search f) (l : Nat) : Nat := s.levels.getD (l / 2) 0

def position (s : Search f) (l : Nat) : Nat := s.positions.getD (l / 2) 0

def reason? (s : Search f) (l : Nat) : Option (Rule f) := s.reasons.getD (l / 2) none

def reasonsExcept (s : Search f) (l : Nat) (ls : List Nat) : List (Entailed f) :=
  ls.filterMap fun m => if m = l then none else (s.reason? m).map (·.fact)

/-- A reason of a literal; before any decision it is the literal alone. -/
def reasonFor (s : Search f) (l : Nat) (r : Rule f) : Rule f :=
  if s.decisions.size = 0 then
    match Entailed.derive? [.ofCode l] (s.reasonsExcept l r.codes ++ [r.fact]) with
    | some fact => .ofFact fact 0
    | none => r
  else r

def assign (s : Search f) (l : Nat) (reason? : Option (Rule f)) : Search f :=
  let v := l / 2
  let level := s.decisions.size
  let position := s.trail.size
  { s with
    truths := (s.truths.setIfInBounds l .holds).setIfInBounds (opposite l) .fails
    levels := s.levels.setIfInBounds v level
    positions := s.positions.setIfInBounds v position
    reasons := s.reasons.setIfInBounds v reason?
    recent := s.recent.setIfInBounds v l
    trail := s.trail.push l }

def force (s : Search f) (l : Nat) (r : Rule f) : Search f :=
  let r := s.reasonFor l r
  s.assign l (some r)

def watch (s : Search f) (i l : Nat) : Search f :=
  let others := s.watchers.getD l []
  { s with watchers := s.watchers.setIfInBounds l (i :: others) }

def addRule (s : Search f) (r : Rule f) (a b : Nat) : Search f :=
  let i := s.rules.size
  ({ s with rules := s.rules.push (some r), pairs := s.pairs.push (a + b) }.watch i a).watch i b

/-- Looks at the clauses that watch a literal which has become false, up to a violated one.  Those
looked at that go on watching it are collected. -/
def visit (l : Nat) (s : Search f) (kept : List Nat) : List Nat → Search f × Option (Rule f)
  | [] => ({ s with watchers := s.watchers.setIfInBounds l kept }, none)
  | i :: is =>
    let other := s.pairs.getD i 0 - l
    if s.truth other = .holds then visit l s (i :: kept) is
    else match s.rules.getD i none with
      | none => visit l s kept is
      | some r =>
        match r.codes.find? fun m => m != other && s.truth m != .fails with
        | some m =>
          let s := { s with pairs := s.pairs.setIfInBounds i (other + m) }
          visit l (s.watch i m) kept is
        | none =>
          if s.truth other = .fails then
            ({ s with watchers := s.watchers.setIfInBounds l (kept ++ i :: is) }, some r)
          else visit l (s.force other r) (i :: kept) is

/-- Draws the conclusions from a position of the trail on, up to a violated clause. -/
def propagate (s : Search f) (head : Nat) : Nat → Search f × Option (Rule f)
  | 0 => (s, none)
  | steps + 1 =>
    match s.trail[head]? with
    | none => (s, none)
    | some l =>
      let l := opposite l
      let watchers := s.watchers.getD l []
      match visit l s [] watchers with
      | (s, some r) => (s, some r)
      | (s, none) => s.propagate (head + 1) steps

def backtrack (s : Search f) (target : Nat) : Search f :=
  let keep := s.decisions.getD target s.trail.size
  let undone := s.trail.extract keep s.trail.size
  { s with
    truths := undone.foldl (fun truths l =>
      (truths.setIfInBounds l .unset).setIfInBounds (opposite l) .unset) s.truths
    queue := undone.foldl (fun queue l => queue.insert (l / 2)) s.queue
    trail := s.trail.shrink keep
    decisions := s.decisions.shrink target }

def choose (s : Search f) : Nat → Search f × Option Nat
  | 0 => (s, none)
  | steps + 1 =>
    match s.queue.first? with
    | none => (s, none)
    | some v =>
      let s := { s with queue := s.queue.pop }
      if s.truth (2 * v) = .unset then (s, some v) else s.choose steps

def decide (s : Search f) (v : Nat) : Search f :=
  let l := s.recent.getD v 0
  let size := s.trail.size
  { s with decisions := s.decisions.push size }.assign l none

def assignment (s : Search f) : Assignment :=
  let truths := s.truths
  fun v => truths.getD (2 * v) .unset = .holds

def blank (f : Cnf) (vars : Nat) : Search f where
  rules := #[]
  pairs := #[]
  watchers := Array.replicate (2 * vars) []
  truths := Array.replicate (2 * vars) .unset
  levels := Array.replicate vars 0
  positions := Array.replicate vars 0
  reasons := Array.replicate vars none
  recent := (Array.range vars).map (2 * · + 1)
  trail := #[]
  decisions := #[]
  queue := .upTo vars
  seen := Array.replicate vars false

end Search

end Sat

end Lasso
