import PipeSheet.Proofs.Formula.Moved
import PipeSheet.Proofs.Table.Block
import PipeSheet.Proofs.Table.Relabel
/-!
# PipeSheet.Proofs.Table.Moved

**Where a table is read decides about the ids of its formulas, and about nothing else.**

A cell takes no id but the root of its formula, and an error takes none at all. So a table that is
read behind some nodes has the cells that it has without them, except that its roots are moved.

* `Cell.mapIds`, `Table.mapIds`: other names for the roots of formulas;
* `Table.read_behind`: the law.
-/

namespace PipeSheet

open Formula (NodeId Store)
open Text (Piece byteLength)

/-! ### Other names for roots -/

/-- The cell with another name for the root of its formula. -/
def Cell.mapIds (name : NodeId → NodeId) : Cell → Cell
  | .formula f => .formula { f with root := name f.root }
  | cell => cell

/-- The table with other names for the roots of its formulas. -/
def Table.mapIds (name : NodeId → NodeId) (t : Table) : Table :=
  { t with
    cells := t.cells.map (Cell.mapIds name)
    size_cells := by rw [Array.size_map, t.size_cells] }

theorem Table.mapIds_eq (name : NodeId → NodeId) (t : Table) :
    t.mapIds name = t.relabel { name } := by
  have hcell : Cell.mapIds name = Cell.relabel { name } := by
    funext cell
    cases cell <;> rfl
  unfold mapIds relabel
  congr 1
  rw [hcell]

/-! ### Reading behind a store -/

theorem readCell_behind (piece : Piece) (s before : Store) :
    Cell.read piece (s.behind before) =
      ((Cell.read piece s).1.map (Cell.mapIds (.moved before.size)),
        (Cell.read piece s).2.behind before) := by
  unfold Cell.read
  dsimp only
  split
  · rw [Formula.read_behind]
    obtain ⟨_ | root, s'⟩ := Formula.read (Text.trim piece.text).tail s
    · rfl
    · rfl
  · split
    · rfl
    · rfl

theorem readCells_behind (cells : Array Cell) (slots : List (Position × Option Piece))
    (s before : Store) :
    readCells (cells.map (Cell.mapIds (.moved before.size))) slots (s.behind before) =
      ((readCells cells slots s).1.map (Array.map (Cell.mapIds (.moved before.size))),
        (readCells cells slots s).2.behind before) := by
  fun_induction readCells cells slots s with
  | case1 cells s => rfl
  | case2 cells p rest s ih =>
      rw [Array.map_push] at ih
      exact ih
  | case3 cells p piece rest s cell s₁ hcell ih =>
      rw [Array.map_push] at ih
      rw [readCells, readCell_behind, hcell]
      exact ih
  | case4 cells p piece rest s cause s₁ hcell =>
      rw [readCells, readCell_behind, hcell]
      rfl

/-- Reading a table behind a store gives what reading it without the store gives, moved behind
it. -/
theorem Table.read_behind (source : List Char) (s before : Store) :
    Table.read source (s.behind before) =
      ((Table.read source s).1.map (Table.mapIds (.moved before.size)),
        (Table.read source s).2.behind before) := by
  have hcells := readCells_behind #[] (slots source) s before
  rw [Array.map_empty] at hcells
  unfold Table.read
  split
  · next e s₁ hmoved =>
    split
    · next hread =>
      rw [hmoved, hread] at hcells
      cases hcells
      rfl
    · next hread =>
      rw [hmoved, hread] at hcells
      cases hcells
  · next cells s₁ hmoved =>
    split
    · next hread =>
      rw [hmoved, hread] at hcells
      cases hcells
    · next hread =>
      rw [hmoved, hread] at hcells
      cases hcells
      rfl

/-- Reading a table into a store gives what reading it alone gives, moved behind the store. -/
theorem Table.read_eq_behind (source : List Char) (store : Store) :
    Table.read source store =
      ((Table.read source .empty).1.map (Table.mapIds (.moved store.size)),
        (Table.read source .empty).2.behind store) := by
  rw [← Table.read_behind, Store.behind_empty]

/-- Reading a table into an empty store adds no more nodes than the source has bytes. Children stand
first in them, and every formula of the table says a tree. -/
theorem Table.of_read_empty {source : List Char} {result : Except TableError Table} {alone : Store}
    (h : Table.read source .empty = (result, alone)) (hroom : byteLength source ≤ 2 ^ 32) :
    alone.size ≤ byteLength source ∧ alone.ChildrenFirst ∧
      ∀ t, result = .ok t → t.Rooted alone := by
  have hsize := size_readTable_le source .empty
  rw [h, Store.size_empty, Nat.zero_add] at hsize
  refine ⟨hsize, childrenFirst_of_read Store.childrenFirst_empty h (hsize.trans hroom), ?_⟩
  rintro t rfl
  exact (readsAs_of_size_le h (hsize.trans hroom)).rooted

end PipeSheet
