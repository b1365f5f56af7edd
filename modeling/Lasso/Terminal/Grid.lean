import Lasso.Terminal.Escape

/-! # Tables of text

A grid of cells, printed with one line a row and columns aligned on the right.  The width of a
column grows with the cells put into it and shrinks when it is limited.
-/

namespace Lasso

set_option autoImplicit false

structure Grid where
  widths : Array Nat
  cells : Array (Array String)
  escapes : Array (Array String)
  coloured : Bool

namespace Grid

inductive GridError where
  | outOfRange
  | columnCount

/-- Changes to a grid that may fail; what was changed before a failure stays. -/
abbrev Change := ExceptT GridError (StateM Grid)

def ofSize (columns rows : Nat) : Grid where
  widths := .replicate columns 0
  cells := .replicate rows (.replicate columns "")
  escapes := .replicate rows (.replicate columns "")
  coloured := true

def widen (column : Nat) (text : String) (g : Grid) : Grid :=
  { g with widths := g.widths.modify column (max · text.length) }

/-- Fills a cell.  The column is widened before the row is looked for. -/
def set (column row : Nat) (text : String) : Change Unit := do
  if (← get).widths.size ≤ column then throw .outOfRange
  modify (widen column text)
  if (← get).cells.size ≤ row then throw .outOfRange
  modify fun g => { g with cells := g.cells.modify row (·.setIfInBounds column text) }

def get? (g : Grid) (column row : Nat) : Option String := do (← g.cells[row]?)[column]?

def setEscape (column row : Nat) (escape : String) : Change Unit := do
  let g ← get
  if g.escapes.size ≤ row ∨ g.widths.size ≤ column then throw .outOfRange
  modify fun g => { g with escapes := g.escapes.modify row (·.setIfInBounds column escape) }

def widenFrom : Nat → List String → Grid → Grid
  | _, [], g => g
  | column, text :: texts, g => widenFrom (column + 1) texts (widen column text g)

def setRow (row : Nat) (texts : List String) : Change Unit := do
  if texts.length ≠ (← get).widths.size then throw .columnCount
  modify (widenFrom 0 texts)
  if (← get).cells.size ≤ row then throw .outOfRange
  modify fun g => { g with cells := g.cells.setIfInBounds row texts.toArray }

def limit (column width : Nat) : Change Unit := do
  if (← get).widths.size ≤ column then throw .outOfRange
  modify fun g => { g with widths := g.widths.modify column (min · width) }

def limitAll (width : Nat) (g : Grid) : Grid := { g with widths := g.widths.map (min · width) }

/-- Fields are padded up to this width; a wider field is marked instead. -/
def widestField : Nat := 1000000

def field (width : Nat) (text : String) : String :=
  if width > widestField then "%!(BADWIDTH)" ++ text
  else String.ofList (List.replicate (width - text.length) ' ') ++ text

/-- The text of a cell: in full, or cut short with two dots if it is longer than its column, unless
the column is too narrow for that. -/
def renderText (width : Nat) (text : String) : String :=
  if text.length > width ∧ width > 2 then
    " " ++ field (width - 2) (String.ofList (text.toList.take (width - 2))) ++ ".."
  else " " ++ field width text

def renderCell (coloured : Bool) (width : Nat) (escape text : String) : String :=
  let content := renderText width text
  if coloured ∧ escape ≠ "" then escape ++ content ++ Escape.reset.render ++ " |"
  else content ++ " |"

def renderCells (coloured : Bool) : List Nat → List String → List String → String
  | width :: widths, escape :: escapes, text :: texts =>
    renderCell coloured width escape text ++ renderCells coloured widths escapes texts
  | _, _, _ => ""

def renderRow (g : Grid) (escapes texts : Array String) : String :=
  renderCells g.coloured g.widths.toList escapes.toList texts.toList ++ "\n"

def render (g : Grid) : String :=
  String.join (List.zipWith g.renderRow g.escapes.toList g.cells.toList)

end Grid

end Lasso
