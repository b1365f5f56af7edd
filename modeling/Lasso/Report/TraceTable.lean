import Lasso.Bounded.Trace
import Lasso.Terminal.Grid

/-! # Printed traces

A trace is printed as a table with a row for each variable and a column for each step.  The step to
which the trace loops back is marked.
-/

namespace Lasso

set_option autoImplicit false

namespace Trace

def widestName : Nat := 32

def heading (t : Trace) (step : Nat) : String :=
  if t.loopback.isSingle ∧ t.loopback.word.toInt = step then "*" ++ toString step else toString step

def valueText (b : Bool) : String := if b then "1" else "0"

def valueEscape (b : Bool) : Escape :=
  Escape.plain.foreground (if b then Escape.green else Escape.red)

def row (t : Trace) (index : Nat) : List Bool := t.states.map (·.getD index false)

def grid (t : Trace) (coloured : Bool) : Grid :=
  let steps := List.range t.length
  let rows := t.vars.toList.map fun v => (v.name, t.row v.index)
  let cells := ("" :: steps.map t.heading) ::
    rows.map fun (name, values) => name :: values.map valueText
  let escapes := ("" :: steps.map fun _ => Escape.bold.render) ::
    rows.map fun (_, values) => "" :: values.map fun b => (valueEscape b).render
  let blank := { Grid.ofSize (t.length + 1) (rows.length + 1) with coloured }
  let filled := cells.zipIdx.foldl (fun g (texts, i) => ((Grid.setRow i texts).run g).2) blank
  let limited := ((Grid.limit 0 widestName).run filled).2
  { limited with escapes := (escapes.map List.toArray).toArray }

def render (t : Trace) (coloured : Bool) : String :=
  let table := (t.grid coloured).render
  if t.loopback.isSingle then
    table ++ "(loops back to step " ++ Loop.number t.loopback.word ++ ")\n"
  else table

end Trace

end Lasso
