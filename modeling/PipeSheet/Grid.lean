import PipeSheet.Table.Basic
import PipeSheet.Number.Printer
/-!
# PipeSheet.Grid

**A grid is what a table shows: a value for every place, and the text of it all.**

A formula shows its value once it is evaluated and nothing before. Written out, the values of a row
stand between bars and every row ends with a line end, which is the form that tables are read from.

* `Value`, `Grid`, `Grid.get?`: the values and their places;
* `chunks`, `Grid.toRows`: the values row by row;
* `Table.toGrid`: the grid of a table in its present state;
* `Grid.render`: the text of a grid, with a number of places for every number.
-/

namespace PipeSheet

/-- What one place shows. -/
inductive Value where
  | empty
  | text (content : List Char)
  | number (value : Float)
  deriving DecidableEq

instance : Inhabited Value := ⟨.empty⟩

/-- A rectangle of values, row by row. -/
structure Grid where
  rows : Nat
  cols : Nat
  values : Array Value
  size_values : values.size = rows * cols
  deriving DecidableEq

/-- Some values in stretches of `n`, of which the last one may be shorter. -/
def chunks {α : Type} (n : Nat) (values : Array α) : List (List α) :=
  (List.range ((values.size + n - 1) / n)).map fun i =>
    (values.extract (i * n) ((i + 1) * n)).toList

namespace Grid

/-- The value at a position, if the position lies inside the grid. -/
def get? (g : Grid) (p : Position) : Option Value :=
  if p.row < g.rows ∧ p.col < g.cols then g.values[p.row * g.cols + p.col]? else none

/-- The number at a position, if the position shows one. -/
def number? (g : Grid) (p : Position) : Option Float :=
  match g.get? p with
  | some (.number value) => some value
  | _ => none

/-- The values row by row. Of the grid the number of columns is all that is needed, so a grid
without columns has no rows to show. -/
def toRows (g : Grid) : List (List Value) :=
  chunks (max g.cols 1) g.values

end Grid

/-- What a cell shows. -/
def Cell.value : Cell → Value
  | .empty => .empty
  | .text _ content => .text content
  | .number value => .number value
  | .formula ⟨_, .evaluated, value⟩ => .number value
  | .formula _ => .empty

/-- The grid of a table in its present state. -/
def Table.toGrid (t : Table) : Grid where
  rows := t.rows
  cols := t.cols
  values := t.cells.map Cell.value
  size_values := by rw [Array.size_map, t.size_cells]

/-! ### The text of a grid -/

/-- The number of places that numbers have unless another one is asked for. -/
def defaultPrecision : Nat := 6

/-- The text of a value: a number in fixed places, a text as it is, and nothing for an empty
place. -/
def Value.render (precision : Nat) : Value → List Char
  | .empty => []
  | .text content => content
  | .number value => Number.fixed precision value

/-- The text of a row: its values between bars, and a line end. -/
def renderRow (precision : Nat) (row : List Value) : List Char :=
  List.intercalate ['|'] (row.map (Value.render precision)) ++ ['\n']

/-- The text of a grid. -/
def Grid.render (precision : Nat) (g : Grid) : List Char :=
  g.toRows.flatMap (renderRow precision)

end PipeSheet
