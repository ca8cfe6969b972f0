import PipeSheet.Table.Basic
import PipeSheet.Text.Blank
import PipeSheet.Formula.Reader
/-!
# PipeSheet.Table.Reader

**A source is lines of pieces, and each piece is one cell.**

Lines are separated by line ends and the pieces of a line by `|`. The widest line gives the number
of columns, and a line that ends earlier is filled up with empty cells. A piece without its blanks
is a formula if it begins with `=`, a number if it reads as one, and a text otherwise. Formulas go
into the store row by row; the first one that does not read ends the reading.

* `pieceRows`, `slots`: the places of the table, each with the piece that is written there, if any;
* `Cell.read`: the cell of a piece;
* `Table.read`: the table of a source.
-/

namespace PipeSheet

open Text (Piece byteLength)
open Formula (FormulaError Store)

/-- The character between the cells of a line. -/
def cellSeparator : Char := '|'

/-- The character that begins a formula. -/
def formulaMark : Char := '='

/-- A formula that does not read, and its cell. -/
structure TableError where
  cell : Position
  cause : FormulaError
  deriving DecidableEq, Repr

/-- The pieces of each line, with their offsets in the source. -/
def pieceRows (source : List Char) : List (List Piece) :=
  (Text.locate 0 (Text.lines source)).map fun line =>
    Text.locate line.start (Text.pieces cellSeparator line.text)

/-- The length of the longest of some rows. -/
def width {α : Type} (rows : List (List α)) : Nat :=
  (rows.map List.length).foldl max 0

/-- A row filled up to a width; the places beyond its end hold nothing. -/
def fillUp {α : Type} (width : Nat) (row : List α) : List (Option α) :=
  row.map some ++ List.replicate (width - row.length) none

/-- The places of the table of a source, row by row, each with the piece written there. -/
def slots (source : List Char) : List (Position × Option Piece) :=
  let rows := pieceRows source
  let cols := width rows
  rows.zipIdx.flatMap fun (row, r) =>
    (fillUp cols row).zipIdx.map fun (piece, c) => (⟨r, c⟩, piece)

/-- The cell of a piece. -/
def Cell.read (piece : Piece) (store : Store) : Except FormulaError Cell × Store :=
  let content := Text.trim piece.text
  if content.head? = some formulaMark then
    match Formula.read content.tail store with
    | (.ok root, store) => (.ok (.formula { root }), store)
    | (.error e, store) => (.error e, store)
  else
    match Number.read? content with
    | some value => (.ok (.number value), store)
    | none =>
      let start := piece.start + byteLength (Text.indent piece.text)
      (.ok (.text (.ofRange start (start + byteLength content)) content), store)

/-- Reads the places of a table in order, after the cells `before`. -/
def readCells (before : Array Cell) :
    List (Position × Option Piece) → Store → Except TableError (Array Cell) × Store
  | [], store => (.ok before, store)
  | (_, none) :: rest, store => readCells (before.push .empty) rest store
  | (p, some piece) :: rest, store =>
    match Cell.read piece store with
    | (.ok cell, store) => readCells (before.push cell) rest store
    | (.error cause, store) => (.error ⟨p, cause⟩, store)

/-- There is one cell for every place. -/
theorem size_of_readCells {before cells : Array Cell} {slots : List (Position × Option Piece)}
    {store store' : Store} (h : readCells before slots store = (.ok cells, store')) :
    cells.size = before.size + slots.length := by
  induction slots generalizing before store with
  | nil =>
    simp only [readCells, Prod.mk.injEq, Except.ok.injEq] at h
    simp [h.1]
  | cons slot rest ih =>
    obtain ⟨p, _ | piece⟩ := slot
    · have := ih h
      simp only [Array.size_push] at this
      simp [this, Nat.add_comm, Nat.add_left_comm]
    · simp only [readCells] at h
      split at h
      · have := ih h
        simp only [Array.size_push] at this
        simp [this, Nat.add_comm, Nat.add_left_comm]
      · simp at h

theorem le_foldl_max (ns : List Nat) (m : Nat) : m ≤ ns.foldl max m := by
  induction ns generalizing m with
  | nil => exact Nat.le_refl _
  | cons n ns ih => exact Nat.le_trans (Nat.le_max_left m n) (ih (max m n))

theorem le_foldl_max_of_mem {ns : List Nat} {n : Nat} (h : n ∈ ns) (m : Nat) :
    n ≤ ns.foldl max m := by
  induction ns generalizing m with
  | nil => simp at h
  | cons k ns ih =>
    rcases List.mem_cons.1 h with rfl | h
    · exact Nat.le_trans (Nat.le_max_right m n) (le_foldl_max ns _)
    · exact ih h _

theorem length_le_width {α : Type} {rows : List (List α)} {row : List α} (h : row ∈ rows) :
    row.length ≤ width rows :=
  le_foldl_max_of_mem (List.mem_map_of_mem h) 0

@[simp] theorem length_fillUp {α : Type} {width : Nat} {row : List α} (h : row.length ≤ width) :
    (fillUp width row).length = width := by
  simp [fillUp]
  omega

/-- Every row is filled up to the same width, so the places make a rectangle. -/
theorem length_slots (source : List Char) :
    (slots source).length = (pieceRows source).length * width (pieceRows source) := by
  have key : ∀ (rows : List (List Piece)) (n : Nat),
      (∀ row ∈ rows, row.length ≤ width (pieceRows source)) →
      ((rows.zipIdx n).flatMap fun (row, r) =>
        (fillUp (width (pieceRows source)) row).zipIdx.map fun (piece, c) =>
          ((⟨r, c⟩ : Position), piece)).length = rows.length * width (pieceRows source) := by
    intro rows
    induction rows with
    | nil => simp
    | cons row rest ih =>
      intro n h
      simp only [List.zipIdx_cons, List.flatMap_cons, List.length_append, List.length_map,
        List.length_zipIdx, List.length_cons]
      rw [ih (n + 1) (fun r hr => h r (List.mem_cons_of_mem _ hr)),
        length_fillUp (h row List.mem_cons_self), Nat.succ_mul, Nat.add_comm]
  exact key _ 0 fun row h => length_le_width h

/-- The table of a source. Its formulas go into the store; if one does not read, those before it
stay there. -/
def Table.read (source : List Char) (store : Store) : Except TableError Table × Store :=
  match h : readCells #[] (slots source) store with
  | (.error e, store) => (.error e, store)
  | (.ok cells, store) =>
    (.ok {
      source
      rows := (pieceRows source).length
      cols := width (pieceRows source)
      cells
      size_cells := by rw [size_of_readCells h, length_slots]; simp }, store)

end PipeSheet
