import Std.Data.HashSet
import Lasso.Text.Blank
import Lasso.Text.Numeral

/-! # Loops

A path of length `k` with loop `l` repeats at time `k` the state of time `l`.  A loop is a word:
a time, or a time relative to the bound if it is negative, and the two largest words stand for the
absence of a loop and for any loop.  Arithmetic on words wraps around.
-/

namespace Lasso

set_option autoImplicit false

structure Loop where
  word : Int64
  deriving DecidableEq, Hashable, Repr, Inhabited

inductive ArgumentError where
  | negativeTime (time : Int64)
  | negativeBound (bound : Int64)
  | negativeOffset (offset : Int64)
  | relativeLoop (loop : Loop) (bound : Int64)
  | loopBeyond (loop : Loop) (bound : Int64)
  /-- The loop of an encoding does not lie strictly before the bound. -/
  | loopNotBefore (loop : Loop) (bound : Int64)
  /-- The loop of a fairness constraint lies after the bound. -/
  | loopAfter (loop : Loop) (bound : Int64)
  /-- The time to return to lies after the time to return from. -/
  | returnAfter (target source : Int64)
  | timeOutside (time bound : Int64)
  | successorOfAll
  | notOverState
  deriving DecidableEq

namespace Loop

def none : Loop := ⟨Int64.maxValue - 1⟩

def all : Loop := ⟨Int64.maxValue⟩

def isNone (l : Loop) : Bool := l = none

def isAll (l : Loop) : Bool := l = all

def isSingle (l : Loop) : Bool := l ≠ none && l ≠ all

def isRelative (l : Loop) : Bool := l.word < 0

/-- A relative loop as a time of paths of a given length; other loops stay. -/
def absolute (l : Loop) (bound : Int64) : Loop := if l.isRelative then ⟨bound + l.word⟩ else l

def number (n : Int64) : String := toString n.toInt

def text (l : Loop) : String :=
  if l = none then "none" else if l = all then "all" else number l.word

end Loop

namespace ArgumentError

def argument : ArgumentError → String
  | .negativeTime _ | .timeOutside _ _ => "time"
  | .negativeBound _ => "bound"
  | .negativeOffset _ => "offset"
  | .notOverState => "invariant"
  | _ => "loop"

def reason : ArgumentError → String
  | .negativeTime n => "time " ++ Loop.number n ++ " is negative"
  | .negativeBound n => "bound " ++ Loop.number n ++ " is negative"
  | .negativeOffset n => "offset " ++ Loop.number n ++ " is negative"
  | .relativeLoop l k =>
    "relative loop " ++ Loop.number l.word ++ " exceeds bound " ++ Loop.number k
  | .loopBeyond l k => "loop " ++ Loop.number l.word ++ " exceeds bound " ++ Loop.number k
  | .loopNotBefore l k => "loop " ++ l.text ++ " outside of [0," ++ Loop.number k ++ ")"
  | .loopAfter l k => "loop " ++ l.text ++ " outside of [0," ++ Loop.number k ++ "]"
  | .returnAfter l k => "loop " ++ Loop.number l ++ " outside of [0," ++ Loop.number k ++ "]"
  | .timeOutside t k => "time " ++ Loop.number t ++ " outside of [0," ++ Loop.number k ++ "]"
  | .successorOfAll => "successor undefined for all loopbacks"
  | .notOverState => "invariant mentions variables other than current state variables"

def message (e : ArgumentError) : String := "invalid " ++ e.argument ++ ": " ++ e.reason

end ArgumentError

namespace Loop

/-- Reads a loop: a decimal number, or a word for no loop or for any loop.  The numbers of the
sentinels are not accepted. -/
def parse? (cs : List Char) : Option Loop :=
  let cs := Text.trim cs
  let word := String.ofList (Text.lower cs)
  if word ∈ ["*", "all", "all loops"] then some all
  else if word ∈ ["x", "no", "none", "no loop"] then some none
  else ((Text.integer? cs).map Loop.mk).filter isSingle

def parseError (text : String) : String := "invalid loop \"" ++ text ++ "\""

/-- A bound and a loop belong together if the bound is not negative and a single loop is a time
from zero up to the bound. -/
def check (bound : Int64) (l : Loop) : Except ArgumentError Unit :=
  if bound < 0 then .error (.negativeBound bound)
  else if !l.isSingle then .ok ()
  else if (l.absolute bound).word < 0 then .error (.relativeLoop l bound)
  else if (l.absolute bound).word > bound then .error (.loopBeyond l bound)
  else .ok ()

/-- The time after a given one on a path of length `bound`: the last step leads back to the
loop. -/
def successor (bound : Int64) (l : Loop) (time : Int64) : Int64 :=
  if l.isNone || time < bound - 1 then time + 1 else l.word

/-- The time after a given one, if there is one, for arguments that are checked. -/
def successor? (time bound : Int64) (l : Loop) : Except ArgumentError (Option Int64) := do
  check bound l
  if time < 0 || time > bound then throw (.timeOutside time bound)
  if l.isAll then throw .successorOfAll
  if l.isNone && time == bound then return Option.none
  return some ((l.absolute bound).successor bound time)

/-- The times visited from a given one on, up to the first that is visited twice, in at most
`count` steps.  The times before are given as a set and, in reverse, as a list. -/
def walkFrom (bound : Int64) (l : Loop) :
    Nat → Std.HashSet Int64 → List Int64 → Int64 → Except ArgumentError (List Int64)
  | 0, _, before, time => .ok (time :: before).reverse
  | count + 1, visited, before, time => do
    if visited.contains time then return (time :: before).reverse
    match ← successor? time bound l with
    | Option.none => return (time :: before).reverse
    | some next => walkFrom bound l count (visited.insert time) (time :: before) next

/-- The times visited along a path, ending with the first that is visited twice. -/
def walk (bound : Int64) (l : Loop) : Except ArgumentError (List Int64) :=
  walkFrom bound l (bound.toInt + 1).toNat {} [] 0

inductive ExplainError where
  | unreadable (text : String)
  | argument (e : ArgumentError)
  /-- There is no memory for the marks of all steps.  The run fails with a status and no message. -/
  | unbounded

def ExplainError.message : ExplainError → String
  | .unreadable text => parseError text
  | .argument e => e.message
  | .unbounded => ""

/-- The number of bytes that a 64-bit platform can lay out at once.  A step takes one. -/
def longestWalk : Int := 281474976710656

/-- How a loop is taken on paths of a given length, with the steps in the order of visits. -/
def explain (bound : Int64) (text : String) : Except ExplainError String := do
  let some l := parse? text.toList | throw (.unreadable text)
  (check bound l).mapError .argument
  if l.isAll then return "any loop back to a step in [0," ++ number bound ++ ")"
  if bound.toInt + 1 > longestWalk then throw .unbounded
  let steps ← (walk bound l).mapError .argument
  let path := " -> ".intercalate (steps.map number)
  if l.isNone then return "no loop, visiting " ++ path
  return "loop " ++ number (l.absolute bound).word ++ ", visiting " ++ path

end Loop

end Lasso
