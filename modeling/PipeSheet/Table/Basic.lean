import PipeSheet.Formula.Store
import PipeSheet.Text.Span
/-!
# PipeSheet.Table.Basic

**A table is a rectangle of cells, kept row by row.**

The cell at row `r` and column `c` has the index `r * cols + c`. That there are as many cells as the
rectangle has places is part of the type, so every position inside the table has a cell.

* `Cell`: nothing, a text, a number or a formula with its state;
* `Table`, `Table.get?`: the rectangle and its cells;
* `Table.setFormula`: the only change a table ever sees, the state of one formula.
-/

namespace PipeSheet

open Formula (NodeId)

/-- How far the evaluation of a formula cell has come. -/
inductive Status where
  | unevaluated
  | inProgress
  | evaluated
  deriving DecidableEq, Repr, Inhabited

/-- A formula in a cell: where it is in the store, and its state. The value means something once the
status is `evaluated`. -/
structure FormulaCell where
  root : NodeId
  status : Status := .unevaluated
  value : Float := 0
  deriving DecidableEq

/-- One place of a table. -/
inductive Cell where
  /-- The place lies beyond the end of a row that is shorter than the widest one. -/
  | empty
  /-- A text without blanks at its ends, and where it stands in the source. -/
  | text (span : Span) (content : List Char)
  | number (value : Float)
  | formula (f : FormulaCell)
  deriving DecidableEq

instance : Inhabited Cell := ⟨.empty⟩

/-- Whether the cell holds a formula. -/
def Cell.isFormula : Cell → Bool
  | .formula _ => true
  | _ => false

/-- The cell with the state of its formula replaced; other cells have no state. -/
def Cell.withState (status : Status) (value : Float) : Cell → Cell
  | .formula f => .formula { f with status, value }
  | cell => cell

/-- A rectangle of cells and the source it was read from. -/
structure Table where
  source : List Char
  rows : Nat
  cols : Nat
  cells : Array Cell
  size_cells : cells.size = rows * cols
  deriving DecidableEq

namespace Table

instance : Inhabited Table := ⟨⟨[], 0, 0, #[], rfl⟩⟩

/-- Whether a position lies inside the table. -/
def Contains (t : Table) (p : Position) : Prop :=
  p.row < t.rows ∧ p.col < t.cols

instance (t : Table) (p : Position) : Decidable (t.Contains p) :=
  inferInstanceAs (Decidable (_ ∧ _))

/-- The index of a position. -/
def index (t : Table) (p : Position) : Nat :=
  p.row * t.cols + p.col

/-- The index of a position inside the table is the index of a cell. -/
theorem index_lt {t : Table} {p : Position} (h : t.Contains p) : t.index p < t.cells.size := by
  rw [t.size_cells]
  exact Position.index_lt h.1 h.2

/-- The cell at a position, if the position lies inside the table. -/
def get? (t : Table) (p : Position) : Option Cell :=
  if h : t.Contains p then
    have := index_lt h
    some t.cells[t.index p]
  else none

/-- Inside the table the cell at a position is the cell at its index. -/
theorem get?_of_contains {t : Table} {p : Position} (h : t.Contains p) :
    t.get? p = t.cells[t.index p]? := by
  rw [get?, dif_pos h, Array.getElem?_eq_getElem (index_lt h)]

/-- Outside the table there is no cell. -/
theorem get?_of_not_contains {t : Table} {p : Position} (h : ¬ t.Contains p) : t.get? p = none := by
  rw [get?, dif_neg h]

/-- All positions, row by row. -/
def positions (t : Table) : List Position :=
  (List.range t.rows).flatMap fun row => (List.range t.cols).map fun col => ⟨row, col⟩

/-- The number of formula cells. -/
def formulaCount (t : Table) : Nat :=
  t.cells.countP Cell.isFormula

/-- The part of the source under a span. -/
def text? (t : Table) (span : Span) : Option (List Char) :=
  span.slice? t.source

/-- The table with a new state of the formula at a position. Where there is no formula nothing
changes. -/
def setFormula (t : Table) (p : Position) (status : Status) (value : Float) : Table :=
  { t with
    cells := t.cells.modify (t.index p) (Cell.withState status value)
    size_cells := by rw [Array.size_modify, t.size_cells] }

@[simp] theorem rows_setFormula (t : Table) (p : Position) (status : Status) (value : Float) :
    (t.setFormula p status value).rows = t.rows := rfl

@[simp] theorem cols_setFormula (t : Table) (p : Position) (status : Status) (value : Float) :
    (t.setFormula p status value).cols = t.cols := rfl

@[simp] theorem source_setFormula (t : Table) (p : Position) (status : Status) (value : Float) :
    (t.setFormula p status value).source = t.source := rfl

/-- Two positions inside a table do not share an index. -/
theorem index_inj {t : Table} {p q : Position} (hp : t.Contains p) (hq : t.Contains q)
    (h : t.index p = t.index q) : p = q := by
  have hcol : ∀ {r : Position}, t.Contains r → t.index r % t.cols = r.col := fun hr => by
    rw [index, Nat.mul_comm, Nat.mul_add_mod, Nat.mod_eq_of_lt hr.2]
  have hrow : ∀ {r : Position}, t.Contains r → t.index r / t.cols = r.row := fun hr => by
    rw [index, Nat.mul_comm, Nat.mul_add_div (Nat.zero_lt_of_lt hr.2), Nat.div_eq_of_lt hr.2,
      Nat.add_zero]
  have h1 : p.row = q.row := by rw [← hrow hp, ← hrow hq, h]
  have h2 : p.col = q.col := by rw [← hcol hp, ← hcol hq, h]
  cases p
  cases q
  simp_all

/-- Setting a formula changes the cell at its position and no other. -/
theorem get?_setFormula (t : Table) {p : Position} (hp : t.Contains p) (status : Status)
    (value : Float) (q : Position) :
    (t.setFormula p status value).get? q =
      if q = p then (t.get? q).map (Cell.withState status value) else t.get? q := by
  by_cases hq : t.Contains q
  · have hq' : (t.setFormula p status value).Contains q := hq
    rw [get?_of_contains hq', get?_of_contains hq]
    show (t.cells.modify (t.index p) _)[t.index q]? = _
    rw [Array.getElem?_modify]
    by_cases hpq : q = p
    · rw [if_pos hpq, if_pos (by rw [hpq])]
    · rw [if_neg hpq, if_neg fun h => hpq (index_inj hq hp h.symm)]
  · have hq' : ¬ (t.setFormula p status value).Contains q := hq
    rw [get?_of_not_contains hq', get?_of_not_contains hq]
    simp

end Table

end PipeSheet
