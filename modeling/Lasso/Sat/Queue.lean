/-! # Variables by weight

A heap of variables in which the heaviest stands in front.  A variable keeps its weight while it is
out of the heap.
-/

namespace Lasso.Sat

set_option autoImplicit false

structure Queue where
  /-- The variables in the heap; none is heavier than the one at half its position. -/
  order : Array Nat
  /-- The position of each variable, one more than that in `order`, or zero if it is out. -/
  places : Array Nat
  weights : Array Nat
  /-- What a variable gains when it is raised. -/
  gain : Nat

namespace Queue

def weight (q : Queue) (v : Nat) : Nat := q.weights.getD v 0

def contains (q : Queue) (v : Nat) : Bool := q.places.getD v 0 != 0

def put (q : Queue) (i v : Nat) : Queue :=
  { q with order := q.order.setIfInBounds i v, places := q.places.setIfInBounds v (i + 1) }

def siftUp (q : Queue) (v i : Nat) : Queue :=
  if h : i = 0 then q.put 0 v
  else
    let parent := (i - 1) / 2
    let u := q.order.getD parent 0
    if q.weight u < q.weight v then (q.put i u).siftUp v parent else q.put i v
termination_by i
decreasing_by omega

def siftDown (q : Queue) (v : Nat) : Nat → Nat → Queue
  | 0, i => q.put i v
  | steps + 1, i =>
    let left := 2 * i + 1
    if q.order.size ≤ left then q.put i v
    else
      let right := left + 1
      let a := q.order.getD left 0
      let b := q.order.getD right 0
      let (child, u) :=
        if right < q.order.size && q.weight a < q.weight b then (right, b) else (left, a)
      if q.weight v < q.weight u then (q.put i u).siftDown v steps child else q.put i v

def insert (q : Queue) (v : Nat) : Queue :=
  if q.contains v then q
  else
    let i := q.order.size
    { q with order := q.order.push v }.siftUp v i

def first? (q : Queue) : Option Nat := q.order[0]?

def pop (q : Queue) : Queue :=
  match q.order[0]?, q.order.back? with
  | some first, some last =>
    let q := { q with order := q.order.pop, places := q.places.setIfInBounds first 0 }
    if first = last then q else
      let size := q.order.size
      q.siftDown last size 0
  | _, _ => q

def rescale (q : Queue) : Queue :=
  if q.gain < 1000000000000000 then q
  else { q with weights := q.weights.map (· / 1000000000), gain := q.gain / 1000000000 }

def raise (q : Queue) (v : Nat) : Queue :=
  let place := q.places.getD v 0
  let weight := q.weight v + q.gain
  let q := { q with weights := q.weights.setIfInBounds v weight }
  if place = 0 then q else q.siftUp v (place - 1)

def age (q : Queue) : Queue := { q with gain := q.gain + q.gain / 16 }.rescale

def upTo (vars : Nat) : Queue where
  order := Array.range vars
  places := (Array.range vars).map (· + 1)
  weights := Array.replicate vars 0
  gain := 1000

end Queue

end Lasso.Sat
