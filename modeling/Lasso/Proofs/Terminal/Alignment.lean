import Mathlib.Algebra.GroupWithZero.Nat
import Lasso.Terminal.Grid

/-! # Tables are aligned

What a table shows is what its edits left: in each cell the text that was put there last, and for
each column a width that grows with texts and shrinks with limits.  Every row is printed as one line
of the same length, unless a column that is too narrow to cut texts short holds one that is too
long.
-/

namespace Lasso

set_option autoImplicit false

namespace Grid

/-- A change to a table. -/
inductive Edit where
  | set (column row : Nat) (text : String)
  | setRow (row : Nat) (texts : List String)
  | setEscape (column row : Nat) (escape : String)
  | limit (column width : Nat)
  | limitAll (width : Nat)
  | colour (on : Bool)

namespace Edit

def run : Edit → Change Unit
  | set column row text => Grid.set column row text
  | setRow row texts => Grid.setRow row texts
  | setEscape column row escape => Grid.setEscape column row escape
  | limit column width => Grid.limit column width
  | limitAll width => modify (Grid.limitAll width)
  | colour on => modify fun g => { g with coloured := on }

def InRange (columns rows : Nat) : Edit → Prop
  | set column row _ | setEscape column row _ => column < columns ∧ row < rows
  | setRow row texts => row < rows ∧ texts.length = columns
  | limit column _ => column < columns
  | limitAll _ | colour _ => True

def width (column before : Nat) : Edit → Nat
  | set c _ text => if c = column then max before text.length else before
  | setRow _ texts => max before (texts.getD column "").length
  | limit c n => if c = column then min before n else before
  | limitAll n => min before n
  | setEscape _ _ _ | colour _ => before

def text (column row : Nat) (before : String) : Edit → String
  | set c r text => if r = row ∧ c = column then text else before
  | setRow r texts => if r = row then texts.getD column "" else before
  | setEscape _ _ _ | limit _ _ | limitAll _ | colour _ => before

def coloured (before : Bool) : Edit → Bool
  | colour on => on
  | set _ _ _ | setRow _ _ | setEscape _ _ _ | limit _ _ | limitAll _ => before

end Edit

def runAll : List Edit → Change Unit
  | [] => pure ()
  | edit :: edits => do
    edit.run
    runAll edits

def editedWidth (edits : List Edit) (column : Nat) : Nat := edits.foldl (Edit.width column) 0

def editedText (edits : List Edit) (column row : Nat) : String :=
  edits.foldl (Edit.text column row) ""

def editedColour (edits : List Edit) : Bool := edits.foldl Edit.coloured true

/-- A table of a size has certain widths, texts and looks. -/
structure Shows (g : Grid) (columns rows : Nat) (width : Nat → Nat) (text : Nat → Nat → String)
    (colour : Bool) : Prop where
  widths_size : g.widths.size = columns
  cells_size : g.cells.size = rows
  escapes_size : g.escapes.size = rows
  widths : ∀ c < columns, g.widths[c]? = some (width c)
  cells : ∀ r < rows, ∃ cells, g.cells[r]? = some cells ∧ cells.size = columns ∧
    ∀ c < columns, cells[c]? = some (text c r)
  escapes : ∀ r < rows, ∃ escapes, g.escapes[r]? = some escapes ∧ escapes.size = columns
  coloured : g.coloured = colour

theorem shows_ofSize (columns rows : Nat) :
    (ofSize columns rows).Shows columns rows (fun _ => 0) (fun _ _ => "") true where
  widths_size := Array.size_replicate
  cells_size := Array.size_replicate
  escapes_size := Array.size_replicate
  widths _ hc := Array.getElem?_replicate.trans (if_pos hc)
  cells _ hr := ⟨_, Array.getElem?_replicate.trans (if_pos hr), Array.size_replicate,
    fun _ hc => Array.getElem?_replicate.trans (if_pos hc)⟩
  escapes _ hr := ⟨_, Array.getElem?_replicate.trans (if_pos hr), Array.size_replicate⟩
  coloured := rfl

section

variable {g : Grid} {columns rows : Nat} {width : Nat → Nat} {text : Nat → Nat → String}
  {colour : Bool}

theorem Shows.congr (h : g.Shows columns rows width text colour) {width' : Nat → Nat}
    {text' : Nat → Nat → String} (hwidth : ∀ c < columns, width c = width' c)
    (htext : ∀ c < columns, ∀ r < rows, text c r = text' c r) :
    g.Shows columns rows width' text' colour where
  widths_size := h.widths_size
  cells_size := h.cells_size
  escapes_size := h.escapes_size
  widths c hc := hwidth c hc ▸ h.widths c hc
  cells r hr := by
    obtain ⟨cells, hcells, hsize, htexts⟩ := h.cells r hr
    exact ⟨cells, hcells, hsize, fun c hc => htext c hc r hr ▸ htexts c hc⟩
  escapes := h.escapes
  coloured := h.coloured

theorem Shows.get?_eq (h : g.Shows columns rows width text colour) {c r : Nat} (hc : c < columns)
    (hr : r < rows) : g.get? c r = some (text c r) := by
  obtain ⟨cells, hcells, -, htexts⟩ := h.cells r hr
  rw [get?, hcells]
  exact htexts c hc

theorem Shows.withWidths (h : g.Shows columns rows width text colour) {g' : Grid}
    {width' : Nat → Nat} (hsize : g'.widths.size = g.widths.size)
    (hwidths : ∀ c < columns, g'.widths[c]? = g.widths[c]?.map fun _ => width' c)
    (hcells : g'.cells = g.cells) (hescapes : g'.escapes = g.escapes)
    (hcoloured : g'.coloured = g.coloured) :
    g'.Shows columns rows width' text colour where
  widths_size := hsize.trans h.widths_size
  cells_size := hcells ▸ h.cells_size
  escapes_size := hescapes ▸ h.escapes_size
  widths c hc := by rw [hwidths c hc, h.widths c hc, Option.map_some]
  cells := hcells ▸ h.cells
  escapes := hescapes ▸ h.escapes
  coloured := hcoloured.trans h.coloured

theorem Shows.widen (h : g.Shows columns rows width text colour) (column : Nat) (t : String) :
    (widen column t g).Shows columns rows
      (fun c => if column = c then max (width c) t.length else width c) text colour := by
  refine Shows.withWidths h Array.size_modify (fun c hc => ?_) rfl rfl rfl
  change (g.widths.modify column (max · t.length))[c]? = _
  rw [Array.getElem?_modify, h.widths c hc]
  split <;> rfl

theorem Shows.widenFrom (texts : List String) (h : g.Shows columns rows width text colour)
    (column : Nat) : (widenFrom column texts g).Shows columns rows
      (fun c => if column ≤ c then max (width c) (texts.getD (c - column) "").length else width c)
      text colour := by
  induction texts generalizing g width column with
  | nil =>
    apply h.congr _ fun _ _ _ _ => rfl
    intro c _
    split <;> simp
  | cons t texts ih =>
    apply (ih (h.widen column t) (column + 1)).congr _ fun _ _ _ _ => rfl
    intro c _
    -- the first text is for the column itself, the others are for the columns after it
    rcases Nat.lt_trichotomy column c with hlt | rfl | hgt
    · obtain ⟨n, rfl⟩ : ∃ n, c = column + 1 + n := ⟨c - (column + 1), by omega⟩
      have hne : column ≠ column + 1 + n := by omega
      have hsub : column + 1 + n - column = n + 1 := by omega
      rw [if_pos (Nat.le_add_right _ _), if_neg hne, if_pos (Nat.le_of_lt hlt),
        Nat.add_sub_cancel_left, hsub, List.getD_cons_succ]
    · rw [if_neg (by omega), if_pos rfl, if_pos (Nat.le_refl _), Nat.sub_self, List.getD_cons_zero]
    · rw [if_neg (by omega), if_neg (by omega), if_neg (by omega)]

theorem Shows.withRow (h : g.Shows columns rows width text colour) (row : Nat)
    (cells : Array String) {table : Array (Array String)} {text' : Nat → Nat → String}
    (hsize : table.size = g.cells.size)
    (htable : ∀ r < rows, table[r]? = if row = r then some cells else g.cells[r]?)
    (hcolumns : cells.size = columns)
    (htexts : ∀ c < columns, cells[c]? = some (text' c row))
    (hothers : ∀ c r, row ≠ r → text' c r = text c r) :
    Shows { g with cells := table } columns rows width text' colour where
  widths_size := h.widths_size
  cells_size := hsize.trans h.cells_size
  escapes_size := h.escapes_size
  widths := h.widths
  cells r hr := by
    by_cases hrow : row = r
    · subst hrow
      exact ⟨cells, (htable row hr).trans (if_pos rfl), hcolumns, htexts⟩
    · obtain ⟨cells, hold, hcolumns, htexts⟩ := h.cells r hr
      refine ⟨cells, ((htable r hr).trans (if_neg hrow)).trans hold, hcolumns, fun c hc => ?_⟩
      rw [hothers c r hrow]
      exact htexts c hc
  escapes := h.escapes
  coloured := h.coloured

theorem widenFrom_cells (texts : List String) (g : Grid) (column : Nat) :
    (widenFrom column texts g).cells = g.cells := by
  induction texts generalizing g column with
  | nil => rfl
  | cons _ _ ih => exact ih _ _

theorem set_run {column row : Nat} {t : String} (hcolumn : column < g.widths.size)
    (hrow : row < g.cells.size) :
    (Grid.set column row t).run g = (.ok (),
      { Grid.widen column t g with cells := g.cells.modify row (·.setIfInBounds column t) }) := by
  change (if g.widths.size ≤ column then _ else _ : Change Unit).run g = _
  rw [if_neg (Nat.not_le.2 hcolumn)]
  change (if g.cells.size ≤ row then _ else _ : Change Unit).run (Grid.widen column t g) = _
  rw [if_neg (Nat.not_le.2 hrow)]
  rfl

theorem setRow_run {row : Nat} {texts : List String} (hlength : texts.length = g.widths.size)
    (hrow : row < g.cells.size) :
    (Grid.setRow row texts).run g = (.ok (), { Grid.widenFrom 0 texts g with
      cells := g.cells.setIfInBounds row texts.toArray }) := by
  change (if texts.length ≠ g.widths.size then _ else _ : Change Unit).run g = _
  rw [if_neg (not_not_intro hlength)]
  change (if (Grid.widenFrom 0 texts g).cells.size ≤ row then _ else _ : Change Unit).run
    (Grid.widenFrom 0 texts g) = _
  rw [widenFrom_cells, if_neg (Nat.not_le.2 hrow), ← widenFrom_cells texts g 0]
  rfl

theorem setEscape_run {column row : Nat} {escape : String} (hcolumn : column < g.widths.size)
    (hrow : row < g.escapes.size) :
    (Grid.setEscape column row escape).run g = (.ok (),
      { g with escapes := g.escapes.modify row (·.setIfInBounds column escape) }) := by
  change (if g.escapes.size ≤ row ∨ g.widths.size ≤ column then _ else _ : Change Unit).run g = _
  rw [if_neg (by omega)]
  rfl

theorem limit_run {column n : Nat} (hcolumn : column < g.widths.size) :
    (Grid.limit column n).run g = (.ok (),
      { g with widths := g.widths.modify column (min · n) }) := by
  change (if g.widths.size ≤ column then _ else _ : Change Unit).run g = _
  rw [if_neg (Nat.not_le.2 hcolumn)]
  rfl

theorem Edit.run_shows (h : g.Shows columns rows width text colour) {edit : Edit}
    (hrange : edit.InRange columns rows) :
    ∃ g', edit.run.run g = (.ok (), g') ∧ g'.Shows columns rows
      (fun c => edit.width c (width c)) (fun c r => edit.text c r (text c r))
      (edit.coloured colour) := by
  cases edit with
  | set column row t =>
    obtain ⟨hcolumn, hrow⟩ := hrange
    obtain ⟨cells, hcells, hsize, htexts⟩ := h.cells row hrow
    refine ⟨_, set_run (h.widths_size ▸ hcolumn) (h.cells_size ▸ hrow),
      (h.widen column t).withRow row (cells.setIfInBounds column t) Array.size_modify
        (fun r _ => ?_) (Array.size_setIfInBounds.trans hsize) (fun c hc => ?_)
        fun c r hne => if_neg fun h => hne h.1⟩
    · rw [Array.getElem?_modify]
      split
      · next heq => rw [← heq, hcells]; rfl
      · rfl
    · rw [Array.getElem?_setIfInBounds, htexts c hc, hsize]
      change _ = some (if row = row ∧ column = c then t else text c row)
      by_cases heq : column = c <;> simp [heq, hc]
  | setRow row texts =>
    obtain ⟨hrow, hlength⟩ := hrange
    refine ⟨_, setRow_run (hlength.trans h.widths_size.symm) (h.cells_size ▸ hrow),
      (h.widenFrom texts 0).withRow row texts.toArray ?_ (fun r hr => ?_) hlength
        (fun c hc => ?_) fun c r hne => if_neg hne⟩
    · rw [Array.size_setIfInBounds, widenFrom_cells]
    · rw [Array.getElem?_setIfInBounds, widenFrom_cells, h.cells_size]
      by_cases heq : row = r <;> simp [heq, hr]
    · change _ = some (if row = row then texts.getD c "" else text c row)
      rw [if_pos rfl, List.getElem?_toArray, List.getD_eq_getElem?_getD,
        List.getElem?_eq_getElem (hlength.symm ▸ hc), Option.getD_some]
  | setEscape column row escape =>
    obtain ⟨hcolumn, hrow⟩ := hrange
    refine ⟨_, setEscape_run (h.widths_size ▸ hcolumn) (h.escapes_size ▸ hrow), ?_⟩
    refine { h with escapes_size := Array.size_modify.trans h.escapes_size, escapes := ?_ }
    intro r hr
    obtain ⟨escapes, hescapes, hsize⟩ := h.escapes r hr
    change ∃ _, (g.escapes.modify row _)[r]? = _ ∧ _
    rw [Array.getElem?_modify, hescapes]
    split
    · exact ⟨_, rfl, Array.size_setIfInBounds.trans hsize⟩
    · exact ⟨_, rfl, hsize⟩
  | limit column n =>
    refine ⟨_, limit_run (h.widths_size ▸ hrange),
      h.withWidths Array.size_modify (fun c hc => ?_) rfl rfl rfl⟩
    change (g.widths.modify column (min · n))[c]? = _
    rw [Array.getElem?_modify, h.widths c hc]
    change _ = some (if column = c then min (width c) n else width c)
    split <;> rfl
  | limitAll n =>
    refine ⟨Grid.limitAll n g, rfl, h.withWidths Array.size_map (fun c hc => ?_) rfl rfl rfl⟩
    change (g.widths.map (min · n))[c]? = _
    rw [Array.getElem?_map, h.widths c hc]
    rfl
  | colour on => exact ⟨{ g with coloured := on }, rfl, { h with coloured := rfl }⟩

theorem run_seq {first second : Change Unit} {g' : Grid} (h : first.run g = (.ok (), g')) :
    (do first; second : Change Unit).run g = second.run g' := by
  have hfirst : StateT.run first.run g = (pure (.ok (), g') : Id _) := h
  change StateT.run (first >>= fun _ => second : Change Unit).run g = _
  rw [ExceptT.run_bind, StateT.run_bind, hfirst, pure_bind]
  rfl

theorem runAll_shows (edits : List Edit) (h : g.Shows columns rows width text colour)
    (hrange : ∀ edit ∈ edits, edit.InRange columns rows) :
    ∃ g', (runAll edits).run g = (.ok (), g') ∧ g'.Shows columns rows
      (fun c => edits.foldl (Edit.width c) (width c))
      (fun c r => edits.foldl (Edit.text c r) (text c r)) (edits.foldl Edit.coloured colour) := by
  induction edits generalizing g width text colour with
  | nil => exact ⟨g, rfl, h⟩
  | cons edit edits ih =>
    obtain ⟨hedit, hedits⟩ := List.forall_mem_cons.1 hrange
    obtain ⟨g₁, hrun, h₁⟩ := Edit.run_shows h hedit
    obtain ⟨g₂, hruns, h₂⟩ := ih h₁ hedits
    refine ⟨g₂, ?_, h₂⟩
    rw [runAll, run_seq hrun, hruns]

end

/-- A text, aligned on the right if it fits into its column, and cut short if it does not. -/
def shown (width : Nat) (text : String) : List Char :=
  if text.length ≤ width then List.replicate (width - text.length) ' ' ++ text.toList
  else text.toList.take (width - 2) ++ ['.', '.']

/-- A column cuts texts short, or they fit into it. -/
def Fits (width : Nat) (text : String) : Prop := 2 < width ∨ text.length ≤ width

def line (columns : Nat) (width : Nat → Nat) (text : Nat → String) : List Char :=
  (List.range columns).flatMap fun c => ' ' :: shown (width c) (text c) ++ [' ', '|']

theorem length_shown {n : Nat} {t : String} (h : Fits n t) : (shown n t).length = n := by
  rw [shown]
  split
  next hle => rw [List.length_append, List.length_replicate, String.length_toList]; omega
  next hlt =>
    have hwide : 2 < n := h.resolve_right hlt
    rw [List.length_append, List.length_take, String.length_toList]
    simp only [List.length_cons, List.length_nil]
    omega

theorem toList_field {n : Nat} (h : n ≤ widestField) (t : String) :
    (field n t).toList = List.replicate (n - t.length) ' ' ++ t.toList := by
  rw [field, if_neg (Nat.not_lt.2 h), String.toList_append, String.toList_ofList]

theorem toList_renderText {n : Nat} {t : String} (hwidest : n ≤ widestField) (h : Fits n t) :
    (renderText n t).toList = ' ' :: shown n t := by
  rw [renderText, shown]
  by_cases hle : t.length ≤ n
  · rw [if_neg fun h => Nat.not_lt.2 hle h.1, if_pos hle, String.toList_append,
      toList_field hwidest]
    rfl
  · have hwide : 2 < n := h.resolve_right hle
    have hcut : n - 2 - (String.ofList (t.toList.take (n - 2))).length = 0 := by
      rw [String.length_ofList, List.length_take, String.length_toList]
      omega
    rw [if_pos ⟨Nat.not_le.1 hle, hwide⟩, if_neg hle, String.toList_append, String.toList_append,
      toList_field (Nat.le_trans (Nat.sub_le _ _) hwidest), hcut, List.replicate_zero,
      List.nil_append, String.toList_ofList (l := t.toList.take (n - 2))]
    rfl

theorem toList_renderCells {width : Nat → Nat} {text : Nat → String} {cs : List Nat}
    (hwidest : ∀ c ∈ cs, width c ≤ widestField) (hfits : ∀ c ∈ cs, Fits (width c) (text c))
    {escapes : List String} (hlength : escapes.length = cs.length) :
    (renderCells false (cs.map width) escapes (cs.map text)).toList =
      cs.flatMap fun c => ' ' :: shown (width c) (text c) ++ [' ', '|'] := by
  induction cs generalizing escapes with
  | nil => rfl
  | cons c cs ih =>
    match escapes, hlength with
    | escape :: escapes, hlength =>
      obtain ⟨hwidest₁, hwidest⟩ := List.forall_mem_cons.1 hwidest
      obtain ⟨hfits₁, hfits⟩ := List.forall_mem_cons.1 hfits
      have hcell : (renderCell false (width c) escape (text c)).toList =
          ' ' :: shown (width c) (text c) ++ [' ', '|'] := by
        rw [renderCell, if_neg fun h => Bool.noConfusion h.1, String.toList_append,
          toList_renderText hwidest₁ hfits₁]
        rfl
      rw [List.map_cons, List.map_cons, renderCells, String.toList_append, hcell,
        ih hwidest hfits (Nat.succ.inj hlength), List.flatMap_cons]

theorem toList_eq_map {α : Type} {a : Array α} {n : Nat} {f : Nat → α} (hsize : a.size = n)
    (h : ∀ i < n, a[i]? = some (f i)) : a.toList = (List.range n).map f := by
  apply List.ext_getElem?
  intro i
  rw [Array.getElem?_toList, List.getElem?_map]
  by_cases hi : i < n
  · rw [h i hi, List.getElem?_range hi]
    rfl
  · rw [Array.getElem?_eq_none (by omega), List.getElem?_eq_none (by simpa using hi)]
    rfl

section

variable {g : Grid} {columns rows : Nat} {width : Nat → Nat} {text : Nat → Nat → String}
  {colour : Bool}

theorem Shows.toList_renderRow (h : g.Shows columns rows width text false)
    (hwidest : ∀ c < columns, width c ≤ widestField) {row : Nat}
    (hfits : ∀ c < columns, Fits (width c) (text c row)) {escapes cells : Array String}
    (hescapes : escapes.size = columns) (hcells : cells.size = columns)
    (htexts : ∀ c < columns, cells[c]? = some (text c row)) :
    (g.renderRow escapes cells).toList = line columns width (text · row) ++ ['\n'] := by
  have hwidths := toList_eq_map h.widths_size h.widths
  have htexts := toList_eq_map hcells htexts
  have hlength : escapes.toList.length = (List.range columns).length := by
    rw [Array.length_toList, hescapes, List.length_range]
  rw [renderRow, h.coloured, hwidths, htexts, String.toList_append, toList_renderCells _ _ hlength]
  · rfl
  · exact fun c hc => hwidest c (List.mem_range.1 hc)
  · exact fun c hc => hfits c (List.mem_range.1 hc)

theorem Shows.toList_render (h : g.Shows columns rows width text false)
    (hwidest : ∀ c < columns, width c ≤ widestField)
    (hfits : ∀ c < columns, ∀ r < rows, Fits (width c) (text c r)) :
    g.render.toList =
      (List.range rows).flatMap fun r => line columns width (text · r) ++ ['\n'] := by
  rw [render, String.toList_join, List.flatMap_def, List.flatMap_def, List.map_zipWith]
  congr 1
  apply List.ext_getElem?
  intro r
  rw [List.getElem?_zipWith, List.getElem?_map, Array.getElem?_toList, Array.getElem?_toList]
  by_cases hr : r < rows
  · obtain ⟨cells, hcells, hsize, htexts⟩ := h.cells r hr
    obtain ⟨escapes, hescapes, hescapesSize⟩ := h.escapes r hr
    rw [hcells, hescapes, List.getElem?_range hr]
    exact congrArg some (h.toList_renderRow hwidest (hfits · · r hr) hescapesSize hsize htexts)
  · rw [Array.getElem?_eq_none (by rw [h.escapes_size]; omega),
      List.getElem?_eq_none (by simpa using hr)]
    rfl

end

theorem length_line {columns : Nat} {width : Nat → Nat} {text : Nat → String}
    (hfits : ∀ c < columns, Fits (width c) (text c)) :
    (line columns width text).length = ((List.range columns).map (width · + 3)).sum := by
  rw [line, List.length_flatMap]
  congr 1
  apply List.map_congr_left
  intro c hc
  rw [List.length_append, List.length_cons, length_shown (hfits c (List.mem_range.1 hc))]
  rfl

theorem splitOn_lines {lines : List (List Char)} (h : ∀ l ∈ lines, '\n' ∉ l) :
    (lines.flatMap (· ++ ['\n'])).splitOn '\n' = lines ++ [[]] := by
  induction lines with
  | nil => rfl
  | cons l lines ih =>
    obtain ⟨hl, hlines⟩ := List.forall_mem_cons.1 h
    have hplain : ∀ c ∈ l, (c == '\n') = false := fun c hc =>
      beq_eq_false_iff_ne.2 fun heq => hl (heq ▸ hc)
    rw [List.flatMap_cons, List.append_assoc, List.cons_append, List.cons_append, ← ih hlines]
    exact List.splitOnP_append_cons_of_forall_mem hplain '\n' rfl _

theorem newline_notMem_line {columns : Nat} {width : Nat → Nat} {text : Nat → String}
    (h : ∀ c < columns, '\n' ∉ (text c).toList) : '\n' ∉ line columns width text := by
  intro hmem
  obtain ⟨c, hc, hmem⟩ := List.mem_flatMap.1 hmem
  have hshown : '\n' ∉ shown (width c) (text c) := by
    have htext := h c (List.mem_range.1 hc)
    rw [shown]
    split
    · simp [htext]
    · simpa using fun hmem => htext (List.mem_of_mem_take hmem)
  simp [hshown] at hmem

/-- The lines of a table after edits. -/
def editedLines (columns rows : Nat) (edits : List Edit) : List (List Char) :=
  (List.range rows).map fun r => line columns (editedWidth edits) (editedText edits · r)

/-- Edits in range succeed, and what they leave is printed row by row in lines of one length. -/
theorem render_aligned (columns rows : Nat) (edits : List Edit)
    (hrange : ∀ edit ∈ edits, edit.InRange columns rows) :
    ∃ g, (runAll edits).run (ofSize columns rows) = (.ok (), g) ∧
      (∀ c < columns, g.widths[c]? = some (editedWidth edits c)) ∧
      (∀ c < columns, ∀ r < rows, g.get? c r = some (editedText edits c r)) ∧
      (editedColour edits = false → (∀ c < columns, editedWidth edits c ≤ widestField) →
        (∀ c < columns, 2 < editedWidth edits c ∨
          ∀ r < rows, (editedText edits c r).length ≤ editedWidth edits c) →
        g.render.toList = (editedLines columns rows edits).flatMap (· ++ ['\n']) ∧
        (∀ l ∈ editedLines columns rows edits,
          l.length = ((List.range columns).map (editedWidth edits · + 3)).sum) ∧
        ((∀ c < columns, ∀ r < rows, '\n' ∉ (editedText edits c r).toList) →
          g.render.toList.splitOn '\n' = editedLines columns rows edits ++ [[]])) := by
  obtain ⟨g, hrun, h⟩ := runAll_shows edits (shows_ofSize columns rows) hrange
  refine ⟨g, hrun, h.widths, fun c hc r hr => h.get?_eq hc hr, fun hplain hwidest hcolumns => ?_⟩
  rw [editedColour] at hplain
  rw [hplain] at h
  have hfits : ∀ c < columns, ∀ r < rows, Fits (editedWidth edits c) (editedText edits c r) :=
    fun c hc r hr => (hcolumns c hc).imp_right fun h => h r hr
  have hrender : g.render.toList = (editedLines columns rows edits).flatMap (· ++ ['\n']) := by
    rw [h.toList_render hwidest hfits, editedLines, List.flatMap_map]
    rfl
  refine ⟨hrender, fun l hl => ?_, fun hbreaks => ?_⟩
  · obtain ⟨r, hr, rfl⟩ := List.mem_map.1 hl
    exact length_line fun c hc => hfits c hc r (List.mem_range.1 hr)
  · rw [hrender]
    apply splitOn_lines
    intro l hl
    obtain ⟨r, hr, rfl⟩ := List.mem_map.1 hl
    exact newline_notMem_line fun c hc => hbreaks c hc r (List.mem_range.1 hr)

/-- A text that is cut short by a limit, beside one that is not. -/
theorem render_aligned_limit :
    ∃ g, (runAll [.set 0 0 "abcdefgh", .limitAll 5, .set 1 0 "xy", .colour false]).run
        (ofSize 2 1) = (.ok (), g) ∧ g.render.toList = " abc.. | xy |\n".toList ∧
      g.render.toList.splitOn '\n' = [" abc.. | xy |".toList, []] := by
  obtain ⟨g, hrun, -, -, hrender⟩ :=
    render_aligned 2 1 [.set 0 0 "abcdefgh", .limitAll 5, .set 1 0 "xy", .colour false] (by
      simp [Edit.InRange])
  obtain ⟨hchars, -, hlines⟩ := hrender rfl (by decide) (by decide)
  exact ⟨g, hrun, hchars.trans (by decide), (hlines (by decide)).trans (by decide)⟩

end Grid

end Lasso
