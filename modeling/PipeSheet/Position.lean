import PipeSheet.Number.Decimal
/-!
# PipeSheet.Position

**A position is a row and a column of a table, and a cell name writes one.**

The first 26 columns have a letter, and `B3` names row 3 of the second column. Other positions have
no name; their label gives both numbers, so no two positions share a label.

* `Position.ofName?`: the position that a cell name writes;
* `Position.label`: the text of a position;
* positions are ordered row by row.
-/

namespace PipeSheet

/-- A row and a column, both counted from 0. -/
structure Position where
  row : Nat
  col : Nat
  deriving DecidableEq, Repr

namespace Position

/-- The number of columns that have a letter. -/
def lettered : Nat := 26

/-- The letter of a column, if it has one. -/
def letter? (p : Position) : Option Char :=
  if p.col < lettered then some (Char.ofNat ('A'.toNat + p.col)) else none

/-- The position that a cell name writes: one capital letter, then the row in decimal. A row of more
than 64 bits is no row. -/
def ofName? : List Char → Option Position
  | [] => none
  | letter :: digits =>
    if letter.isUpper then
      (Number.naturalOf? digits).map fun row => ⟨row, letter.toNat - 'A'.toNat⟩
    else none

/-- The text of a position: its cell name where it has one. -/
def label (p : Position) : List Char :=
  match p.letter? with
  | some letter => letter :: Nat.toDigits 10 p.row
  | none => 'R' :: Nat.toDigits 10 p.row ++ 'C' :: Nat.toDigits 10 p.col

instance : ToString Position := ⟨fun p => String.ofList p.label⟩

/-- The position as a value of its type. -/
def detail (p : Position) : String :=
  "CellPos(" ++ toString p ++ ")"

/-- Positions are ordered by row, and by column within a row. -/
instance : LT Position := ⟨fun p q => p.row < q.row ∨ (p.row = q.row ∧ p.col < q.col)⟩

instance : LE Position := ⟨fun p q => p.row < q.row ∨ (p.row = q.row ∧ p.col ≤ q.col)⟩

theorem lt_iff {p q : Position} : p < q ↔ p.row < q.row ∨ (p.row = q.row ∧ p.col < q.col) :=
  Iff.rfl

theorem le_iff {p q : Position} : p ≤ q ↔ p.row < q.row ∨ (p.row = q.row ∧ p.col ≤ q.col) :=
  Iff.rfl

instance (p q : Position) : Decidable (p < q) :=
  inferInstanceAs (Decidable (_ ∨ _))

instance (p q : Position) : Decidable (p ≤ q) :=
  inferInstanceAs (Decidable (_ ∨ _))

/-- The positions of a list in ascending order. -/
def sorted (ps : List Position) : List Position :=
  ps.mergeSort fun p q => decide (p ≤ q)

/-! ### Indices -/

section Indices

variable {p : Position} {rows cols i : Nat}

/-- Counted row by row, a position in a rectangle has an index below the area. -/
theorem index_lt (hrow : p.row < rows) (hcol : p.col < cols) :
    p.row * cols + p.col < rows * cols :=
  calc p.row * cols + p.col < p.row * cols + cols := Nat.add_lt_add_left hcol _
    _ = (p.row + 1) * cols := (Nat.succ_mul _ _).symm
    _ ≤ rows * cols := Nat.mul_le_mul_right _ hrow

/-- An index below the area is that of a position in the rectangle. -/
theorem inside_of_index_lt (h : i < rows * cols) :
    i / cols < rows ∧ i % cols < cols ∧ i / cols * cols + i % cols = i := by
  have hcols : 0 < cols := Nat.pos_of_ne_zero fun h0 => by simp [h0] at h
  exact ⟨Nat.div_lt_of_lt_mul (Nat.mul_comm rows cols ▸ h), Nat.mod_lt i hcols,
    Nat.div_add_mod' i cols⟩

end Indices

end Position

end PipeSheet
