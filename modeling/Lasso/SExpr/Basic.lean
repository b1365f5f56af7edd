/-! # S-expressions

A symbol or a list of s-expressions, each node carrying a note.  Notes are spans while a text is
read and nothing afterwards; the printed text does not depend on them.
-/

namespace Lasso

set_option autoImplicit false

inductive SExpr (α : Type) where
  | symbol (note : α) (name : String)
  | list (note : α) (items : List (SExpr α))
  deriving Inhabited

namespace SExpr

variable {α β : Type}

mutual

def decEq [DecidableEq α] : (a b : SExpr α) → Decidable (a = b)
  | .symbol n s, .symbol m t =>
    if h : n = m ∧ s = t then .isTrue (by rw [h.1, h.2])
    else .isFalse (by rintro ⟨rfl, rfl⟩; exact h ⟨rfl, rfl⟩)
  | .list n xs, .list m ys =>
    if hn : n = m then
      match decEqItems xs ys with
      | .isTrue h => .isTrue (by rw [hn, h])
      | .isFalse h => .isFalse (by rintro ⟨rfl, rfl⟩; exact h rfl)
    else .isFalse (by rintro ⟨rfl, rfl⟩; exact hn rfl)
  | .symbol _ _, .list _ _ => .isFalse nofun
  | .list _ _, .symbol _ _ => .isFalse nofun

def decEqItems [DecidableEq α] : (xs ys : List (SExpr α)) → Decidable (xs = ys)
  | [], [] => .isTrue rfl
  | x :: xs, y :: ys =>
    match decEq x y, decEqItems xs ys with
    | .isTrue h, .isTrue hs => .isTrue (by rw [h, hs])
    | .isFalse h, _ => .isFalse (by rintro ⟨rfl, rfl⟩; exact h rfl)
    | _, .isFalse hs => .isFalse (by rintro ⟨rfl, rfl⟩; exact hs rfl)
  | [], _ :: _ => .isFalse nofun
  | _ :: _, [] => .isFalse nofun

end

instance [DecidableEq α] : DecidableEq (SExpr α) := decEq

def note : SExpr α → α
  | .symbol n _ => n
  | .list n _ => n

def symbol? : SExpr α → Option String
  | .symbol _ name => some name
  | .list _ _ => none

def items? : SExpr α → Option (List (SExpr α))
  | .symbol _ _ => none
  | .list _ items => some items

/-- The name of the first item of a list if it is a symbol, and the empty name otherwise. -/
def headName : List (SExpr α) → String
  | .symbol _ name :: _ => name
  | _ => ""

mutual

/-- The canonical text: items are separated by one blank. -/
def text : SExpr α → String
  | .symbol _ name => name
  | .list _ items => "(" ++ textItems items ++ ")"

def textItems : List (SExpr α) → String
  | [] => ""
  | [e] => e.text
  | e :: es => e.text ++ " " ++ textItems es

end

mutual

def map (f : α → β) : SExpr α → SExpr β
  | .symbol n name => .symbol (f n) name
  | .list n items => .list (f n) (mapItems f items)

def mapItems (f : α → β) : List (SExpr α) → List (SExpr β)
  | [] => []
  | e :: es => e.map f :: mapItems f es

end

def erase (e : SExpr α) : SExpr Unit := e.map fun _ => ()

instance : Hashable (SExpr α) := ⟨fun e => hash e.text⟩

/-- Whether a list starts with `count` symbols, the first of which have the given names. -/
def startsWithSymbols (items : List (SExpr α)) (count : Int) (names : List String) : Bool :=
  decide (count ≤ items.length) && decide ((names.length : Int) ≤ count) &&
    (items.take count.toNat).all (·.symbol?.isSome) &&
    (items.zip names).all fun (item, name) => item.symbol? == some name

end SExpr

end Lasso
