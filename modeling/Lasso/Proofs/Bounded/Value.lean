import Lasso.Bounded.Semantics
import Lasso.Proofs.Machine.Conversion

/-! # The values of bounded encodings

What the encodings of a formula on paths without and with a loop are meant to be: their values, in
terms of the values of the atomic propositions at the times of the path, and when there is one.
-/

namespace Lasso

set_option autoImplicit false

/-- Values of atomic propositions at the times of the global timeline, by view. -/
abbrev Atoms := View → UInt64 → Expr → Bool

namespace Encoding

/-- The atomic propositions that are conditions have the values of these conditions. -/
def Interprets (e : Encoding) (p : Atoms) : Prop :=
  ∀ V t x, e.accepts false x → p V t x = e.conditionValue (V.letter t) (V.letter t) x

def atoms (e : Encoding) : Atoms := fun V t x => e.conditionValue (V.letter t) (V.letter t) x

theorem interprets_atoms (e : Encoding) : e.Interprets e.atoms := fun _ _ _ _ => rfl

theorem Interprets.of_le {e e' : Encoding} (hle : e ≤ e') {p : Atoms} (h : e'.Interprets p) :
    e.Interprets p := by
  intro V t x hx
  obtain ⟨hx', hval⟩ := accepts_of_vars hle.vars x hx
  rw [h V t x hx', hval]

end Encoding

/-- The value of a boolean connective, which is false for other operators. -/
def BinaryOp.apply : BinaryOp → Bool → Bool → Bool
  | .and, a, b => a && b
  | .or, a, b => a || b
  | .xor, a, b => a ^^ b
  | .implies, a, b => !a || b
  | .iff, a, b => a == b
  | _, _, _ => false

namespace Encoder

theorem connective?_computes {op : BinaryOp} {join : Lit → Lit → StateM Graph Lit}
    (h : connective? op = some join) : Graph.Computes join op.apply := by
  cases op <;> cases h
  · exact Graph.and_computes
  · exact Graph.or_computes
  · exact Graph.xor_computes
  · exact Graph.implies_computes
  · exact Graph.iff_computes

def timesUpTo (first last : Int64) : List Int64 :=
  timesFrom first (last.toInt + 1 - first.toInt).toNat

/-- Until over some times, after which the goal is out of reach. -/
def untilValue (goal wait : Int64 → Bool) (ts : List Int64) (last : Bool) : Bool :=
  ts.foldr (fun t later => goal t || (wait t && later)) last

/-- The dual of until over some times, with its value after them. -/
def releaseValue (goal wait : Int64 → Bool) (ts : List Int64) (last : Bool) : Bool :=
  ts.foldr (fun t later => goal t && (wait t || later)) last

/-- The value of a formula at a time of a path without a loop. -/
def straightValue (p : Int64 → Expr → Bool) (bound : Int64) : Formula → Int64 → Bool
  | .atom e, time => !decide (time > bound) && p time e
  | .unary op f, time => !decide (time > bound) &&
    match op with
    | .not => !straightValue p bound f time
    | .next => straightValue p bound f (time + 1)
    | .eventually => (timesUpTo time bound).any (straightValue p bound f)
    | _ => false
  | .binary op f g, time => !decide (time > bound) &&
    match op with
    | .untl => untilValue (straightValue p bound g) (straightValue p bound f)
      (timesUpTo time bound) false
    | .releases => releaseValue (straightValue p bound g) (straightValue p bound f)
      (timesUpTo time bound) false
    | op => op.apply (straightValue p bound f time) (straightValue p bound g time)

/-- Whether a formula has a value at a time of a path without a loop. -/
def straightOk (acc : Expr → Bool) (bound : Int64) : Formula → Int64 → Bool
  | .atom e, time => decide (time > bound) || acc e
  | .unary op f, time => decide (time > bound) ||
    match op with
    | .not => straightOk acc bound f time
    | .next => straightOk acc bound f (time + 1)
    | .globally => true
    | .eventually => (timesUpTo time bound).all (straightOk acc bound f)
    | _ => false
  | .binary op f g, time => decide (time > bound) ||
    match op with
    | .untl | .releases =>
      (timesUpTo time bound).all fun t => straightOk acc bound g t && straightOk acc bound f t
    | op => (connective? op).isSome && (straightOk acc bound f time && straightOk acc bound g time)

/-- The value of a formula at a time of a path with a loop. -/
def loopingValue (p : Int64 → Expr → Bool) (bound : Int64) (loop : Loop) : Formula → Int64 → Bool
  | .atom e, time => !decide (bound = 0 ∨ time > bound) && p time e
  | .unary op f, time => !decide (bound = 0 ∨ time > bound) &&
    match op with
    | .not => !loopingValue p bound loop f time
    | .next => loopingValue p bound loop f (loop.successor bound time)
    | .globally => (times (min time loop.word) bound).all (loopingValue p bound loop f)
    | .eventually => (times (min time loop.word) bound).any (loopingValue p bound loop f)
    | _ => false
  | .binary op f g, time => !decide (bound = 0 ∨ time > bound) &&
    match op with
    | .untl => untilValue (loopingValue p bound loop g) (loopingValue p bound loop f)
      (times (min time loop.word) bound) false
    | .releases => releaseValue (loopingValue p bound loop g) (loopingValue p bound loop f)
      (times (min time loop.word) (bound - 1)) (loopingValue p bound loop g (bound - 1))
    | op => op.apply (loopingValue p bound loop f time) (loopingValue p bound loop g time)

/-- Whether a formula has a value at a time of a path with a loop. -/
def loopingOk (acc : Expr → Bool) (bound : Int64) (loop : Loop) : Formula → Int64 → Bool
  | .atom e, time => decide (bound = 0 ∨ time > bound) || acc e
  | .unary op f, time => decide (bound = 0 ∨ time > bound) ||
    match op with
    | .not => loopingOk acc bound loop f time
    | .next => loopingOk acc bound loop f (loop.successor bound time)
    | .globally | .eventually =>
      (times (min time loop.word) bound).all (loopingOk acc bound loop f)
    | _ => false
  | .binary op f g, time => decide (bound = 0 ∨ time > bound) ||
    match op with
    | .untl => (times (min time loop.word) bound).all fun t =>
      loopingOk acc bound loop g t && loopingOk acc bound loop f t
    | .releases => loopingOk acc bound loop g (bound - 1) &&
      (times (min time loop.word) (bound - 1)).all fun t =>
        loopingOk acc bound loop g t && loopingOk acc bound loop f t
    | op => (connective? op).isSome &&
      (loopingOk acc bound loop f time && loopingOk acc bound loop g time)

theorem straightOk_mono {acc acc' : Expr → Bool} (h : ∀ x, acc x → acc' x) {bound : Int64}
    {f : Formula} {time : Int64} (hok : straightOk acc bound f time) :
    straightOk acc' bound f time := by
  induction f generalizing time with
  | atom e =>
    simp only [straightOk, Bool.or_eq_true] at hok ⊢
    exact hok.imp_right (h e)
  | unary op f ih =>
    simp only [straightOk, Bool.or_eq_true] at hok ⊢
    refine hok.imp_right fun hok => ?_
    cases op with
    | not => exact ih hok
    | next => exact ih hok
    | eventually =>
      rw [List.all_eq_true] at hok ⊢
      exact fun t ht => ih (hok t ht)
    | _ => exact hok
  | binary op f g ihf ihg =>
    simp only [straightOk, Bool.or_eq_true] at hok ⊢
    refine hok.imp_right fun hok => ?_
    cases op with
    | untl | releases =>
      simp only [List.all_eq_true, Bool.and_eq_true] at hok ⊢
      exact fun t ht => ⟨ihg (hok t ht).1, ihf (hok t ht).2⟩
    | _ =>
      simp only [Bool.and_eq_true] at hok ⊢
      exact ⟨hok.1, ihf hok.2.1, ihg hok.2.2⟩

theorem loopingOk_mono {acc acc' : Expr → Bool} (h : ∀ x, acc x → acc' x) {bound : Int64}
    {loop : Loop} {f : Formula} {time : Int64} (hok : loopingOk acc bound loop f time) :
    loopingOk acc' bound loop f time := by
  induction f generalizing time with
  | atom e =>
    simp only [loopingOk, Bool.or_eq_true] at hok ⊢
    exact hok.imp_right (h e)
  | unary op f ih =>
    simp only [loopingOk, Bool.or_eq_true] at hok ⊢
    refine hok.imp_right fun hok => ?_
    cases op with
    | not => exact ih hok
    | next => exact ih hok
    | globally | eventually =>
      simp only [List.all_eq_true] at hok ⊢
      exact fun t ht => ih (hok t ht)
    | _ => exact hok
  | binary op f g ihf ihg =>
    simp only [loopingOk, Bool.or_eq_true] at hok ⊢
    refine hok.imp_right fun hok => ?_
    cases op with
    | untl =>
      simp only [List.all_eq_true, Bool.and_eq_true] at hok ⊢
      exact fun t ht => ⟨ihg (hok t ht).1, ihf (hok t ht).2⟩
    | releases =>
      simp only [List.all_eq_true, Bool.and_eq_true] at hok ⊢
      exact ⟨ihg hok.1, fun t ht => ⟨ihg (hok.2 t ht).1, ihf (hok.2 t ht).2⟩⟩
    | _ =>
      simp only [Bool.and_eq_true] at hok ⊢
      exact ⟨hok.1, ihf hok.2.1, ihg hok.2.2⟩

end Encoder

/-- The values of atomic propositions on a path that is shifted by an offset. -/
def Atoms.onPath (p : Atoms) (offset : Int64) (V : View) (time : Int64) (x : Expr) : Bool :=
  p V (time + offset).toUInt64 x

namespace Key

open Encoder

def value (key : Key) (p : Atoms) (V : View) : Bool :=
  if key.loop = .none then straightValue (p.onPath key.offset V) key.bound key.formula key.time
  else loopingValue (p.onPath key.offset V) key.bound key.loop key.formula key.time

def ok (key : Key) (acc : Expr → Bool) : Bool :=
  if key.loop = .none then straightOk acc key.bound key.formula key.time
  else loopingOk acc key.bound key.loop key.formula key.time

/-- More atomic propositions do not take the value from a key. -/
theorem ok_mono {key : Key} {acc acc' : Expr → Bool} (h : ∀ x, acc x → acc' x)
    (hok : key.ok acc) : key.ok acc' := by
  unfold ok at hok ⊢
  split
  · rename_i hloop
    rw [if_pos hloop] at hok
    exact straightOk_mono h hok
  · rename_i hloop
    rw [if_neg hloop] at hok
    exact loopingOk_mono h hok

end Key

end Lasso
