import Lasso.Sat.Search

/-! # Learning from a conflict

A violated clause is traced back along the trail to the last literal of the current level that led
to it alone.  The clause learnt from it says that this literal and those of earlier levels that
took part cannot all be true.
-/

namespace Lasso.Sat

set_option autoImplicit false

structure Trace (f : Cnf) where
  /-- The number of literals of the current level that are still to be traced back. -/
  pending : Nat
  /-- The false literals of earlier levels. -/
  earlier : List Nat
  /-- The clauses of single literals that hold before any decision. -/
  settled : List (Entailed f)
  /-- The clauses traced back through, in the order of the trail. -/
  causes : List (Entailed f)
  /-- The variables met. -/
  met : List Nat

namespace Search

variable {f : Cnf}

def note (s : Search f) (t : Trace f) : List Nat → Search f × Trace f
  | [] => (s, t)
  | l :: ls =>
    let v := l / 2
    if s.seen.getD v true then s.note t ls
    else
      let level := s.level l
      let t :=
        if level = 0 then
          { t with settled := (s.reason? l).elim t.settled (·.fact :: t.settled) }
        else if level = s.decisions.size then { t with pending := t.pending + 1 }
        else { t with earlier := l :: t.earlier }
      { s with seen := s.seen.setIfInBounds v true }.note { t with met := v :: t.met } ls

/-- Traces back along the trail, from a position, to a single literal of the current level. -/
def traceBack (s : Search f) (t : Trace f) : Nat → Search f × Trace f × Option Nat
  | 0 => (s, t, none)
  | i + 1 =>
    let l := s.trail.getD i 0
    if !s.seen.getD (l / 2) true then s.traceBack t i
    else if t.pending ≤ 1 then (s, t, some l)
    else match s.reason? l with
      | none => (s, t, none)
      | some r =>
        let t := { t with pending := t.pending - 1, causes := r.fact :: t.causes }
        let (s, t) := s.note t r.codes
        s.traceBack t i

def redundant? (s : Search f) (l : Nat) : Option (List (Entailed f)) := do
  let r ← s.reason? l
  let others := r.codes.filter (· / 2 ≠ l / 2)
  guard (others.all fun m => s.level m = 0 || s.seen.getD (m / 2) false)
  return s.reasonsExcept l (others.filter (s.level · = 0)) ++ [r.fact]

/-- The clause learnt from a trace that ends in a literal, first the negation of that literal, and
the clauses that entail it. -/
def lesson (s : Search f) (t : Trace f) (conflict : Rule f) (last : Nat) :
    List Nat × List (Entailed f) :=
  let kept := t.earlier.filter fun l => (s.redundant? l).isNone
  let dropped := t.earlier.filterMap fun l =>
    (s.redundant? l).map fun causes => (s.position l, causes)
  let dropped := (dropped.mergeSort fun a b => a.1 ≤ b.1).flatMap (·.2)
  (opposite last :: kept, t.settled ++ dropped ++ t.causes ++ [conflict.fact])

def finish (s : Search f) (t : Trace f) : Search f :=
  { s with
    seen := t.met.foldl (fun seen v => seen.setIfInBounds v false) s.seen
    queue := (t.met.foldl (fun queue v => queue.raise v) s.queue).age }

/-- Adds a learnt clause, goes back to the level where its first literal follows, and makes that
literal true. -/
def learn (s : Search f) (fact : Entailed f) (codes : List Nat) : Search f :=
  match codes with
  | [] => s
  | [l] =>
    let s := s.backtrack 0
    s.assign l (some ⟨fact, codes, 0⟩)
  | l :: m :: ms =>
    let latest := ms.foldl (fun best n => if s.level best < s.level n then n else best) m
    let spread := ((m :: ms).map s.level).eraseDups.length + 1
    let target := s.level latest
    let r : Rule f := ⟨fact, codes, spread⟩
    ((s.backtrack target).addRule r l latest).assign l (some r)

def resolve? (s : Search f) (conflict : Rule f) : Option (Search f) :=
  let (s, t) := s.note ⟨0, [], [], [], []⟩ conflict.codes
  let size := s.trail.size
  match s.traceBack t size with
  | (_, _, none) => none
  | (s, t, some last) =>
    let (codes, causes) := s.lesson t conflict last
    match Entailed.derive? (codes.map Lit.ofCode) causes with
    | none => none
    | some fact => some ((s.finish t).learn fact codes)

def refute? (s : Search f) (conflict : Rule f) : Option (Verdict f) :=
  Entailed.refute?
    (conflict.codes.filterMap (fun l => (s.reason? l).map (·.fact)) ++ [conflict.fact])

end Search

end Lasso.Sat
