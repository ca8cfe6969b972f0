import PipeSheet.Proofs.Formula.Block
import PipeSheet.Proofs.Table.Layout
/-!
# PipeSheet.Proofs.Table.Block

**Every formula of a table was read into the store that the formulas before it left.**

So all that is known of reading one formula is known of each formula of a table: its nodes are one
block, and children stand first.

* `childrenFirst_readTable`: reading a table keeps children first, also if it fails;
* `Table.readFrom_of_get?`, `Table.exists_read_of_get?`: the reading that a cell of a table comes
  from, and a formula of it.
-/

namespace PipeSheet

open Formula (NodeId Store)
open Text (Piece)

variable {store store' before : Store} {piece : Piece} {cell : Cell} {source : List Char}
  {t : Table}

/-! ### Children first -/

theorem childrenFirst_readCell (h : store.ChildrenFirst)
    (hsize : (Cell.read piece store).2.size ≤ 2 ^ 32) :
    (Cell.read piece store).2.ChildrenFirst := by
  unfold Cell.read at hsize ⊢
  dsimp only at hsize ⊢
  split at hsize
  · next hmark =>
    rw [if_pos hmark]
    split at hsize
    · next root store₁ hformula => exact Formula.childrenFirst_of_read h hformula hsize
    · next e store₁ hformula => exact Formula.childrenFirst_of_read h hformula hsize
  · next hmark =>
    rw [if_neg hmark]
    split
    · exact h
    · exact h

theorem childrenFirst_readCells {cells : Array Cell} {slots : List (Position × Option Piece)}
    (h : store.ChildrenFirst) (hsize : (readCells cells slots store).2.size ≤ 2 ^ 32) :
    (readCells cells slots store).2.ChildrenFirst := by
  fun_induction readCells cells slots store with
  | case1 cells store => exact h
  | case2 cells p rest store ih => exact ih h hsize
  | case3 cells p piece rest store cell store₁ hcell ih =>
      have hfirst := @childrenFirst_readCell store piece h
      rw [hcell] at hfirst
      have hext := extends_readCells (cells.push cell) rest store₁
      exact ih (hfirst (Nat.le_trans hext.size_le hsize)) hsize
  | case4 cells p piece rest store cause store₁ hcell =>
      have hfirst := @childrenFirst_readCell store piece h
      rw [hcell] at hfirst
      exact hfirst hsize

theorem extends_readTable (source : List Char) (store : Store) :
    store.Extends (Table.read source store).2 := by
  rw [Table.snd_read]
  exact extends_readCells _ _ _

theorem childrenFirst_readTable (h : store.ChildrenFirst)
    (hsize : (Table.read source store).2.size ≤ 2 ^ 32) :
    (Table.read source store).2.ChildrenFirst := by
  rw [Table.snd_read] at hsize ⊢
  exact childrenFirst_readCells h hsize

/-- `childrenFirst_readTable`, of a reading whose store is named. -/
theorem Table.childrenFirst_of_read {result : Except TableError Table} (hs : store.ChildrenFirst)
    (h : Table.read source store = (result, store')) (hsize : store'.size ≤ 2 ^ 32) :
    store'.ChildrenFirst := by
  have hstore : (Table.read source store).2 = store' := congrArg Prod.snd h
  rw [← hstore] at hsize ⊢
  exact childrenFirst_readTable hs hsize

/-! ### The readings of a table -/

/-- A cell was read from the piece in its place, and what was there then is still there. Where there
is no piece, the cell is empty. -/
inductive ReadFrom (store : Store) : Option Piece → Cell → Prop
  | empty : ReadFrom store none .empty
  | piece {piece : Piece} {cell : Cell} {first last : Store} :
      Cell.read piece first = (.ok cell, last) → last.Extends store →
      ReadFrom store (some piece) cell

theorem readFrom_of_readCells {cells after : Array Cell} {slots : List (Position × Option Piece)}
    (h : readCells cells slots store = (.ok after, store')) :
    ∃ added, after.toList = cells.toList ++ added ∧
      List.Forall₂ (fun slot cell => ReadFrom store' slot.2 cell) slots added := by
  fun_induction readCells cells slots store with
  | case1 cells store =>
      cases h
      exact ⟨[], by simp, .nil⟩
  | case2 cells p rest store ih =>
      obtain ⟨added, hcells, hrest⟩ := ih h
      exact ⟨.empty :: added, by simpa using hcells, .cons .empty hrest⟩
  | case3 cells p piece rest store cell store₁ hcell ih =>
      obtain ⟨added, hcells, hrest⟩ := ih h
      have hext := extends_readCells (cells.push cell) rest store₁
      rw [h] at hext
      exact ⟨cell :: added, by simpa using hcells, .cons (.piece hcell hext) hrest⟩
  | case4 cells p piece rest store cause store₁ hcell => cases h

/-- Every cell of a table was read from the piece in its place. -/
theorem Table.readFrom_of_get? (h : Table.read source before = (.ok t, store)) {p : Position}
    (hp : t.get? p = some cell) : ReadFrom store (pieceAt? source p) cell := by
  unfold Table.read at h
  split at h
  · cases h
  · next cells store₁ hread =>
    cases h
    obtain ⟨added, hcells, hfrom⟩ := readFrom_of_readCells hread
    obtain rfl : cells.toList = added := hcells
    exact of_slots rfl rfl hfrom hp

/-- Every piece of the source of a table was read into the cell in its place. -/
theorem Table.exists_read_of_pieceAt? (h : Table.read source before = (.ok t, store)) {p : Position}
    (hpiece : pieceAt? source p = some piece) :
    ∃ cell first last, t.get? p = some cell ∧ Cell.read piece first = (.ok cell, last) ∧
      last.Extends store := by
  obtain ⟨hrows, hcols⟩ := shape_of_read h
  obtain ⟨hrow, hcol⟩ := lt_of_pieceAt? hpiece
  have hin : t.Contains p := ⟨hrows ▸ hrow, hcols ▸ hcol⟩
  obtain ⟨cell, hp⟩ := exists_get?_of_contains hin
  cases hpiece ▸ readFrom_of_get? h hp with
  | piece hcell hext => exact ⟨cell, _, _, hp, hcell, hext⟩

/-- A formula of a table was read from the piece in its place, and its nodes are still there. -/
theorem Table.exists_read_of_get? (h : Table.read source before = (.ok t, store)) {p : Position}
    {f : FormulaCell} (hp : t.get? p = some (.formula f)) :
    ∃ piece first last, pieceAt? source p = some piece ∧
      Formula.read (Text.trim piece.text).tail first = (.ok f.root, last) ∧ last.Extends store := by
  generalize hpiece : pieceAt? source p = piece?
  cases hpiece ▸ readFrom_of_get? h hp with
  | piece hcell hext =>
      rcases readCell_cases hcell with ⟨root, hf, _, hread⟩ | ⟨hother, _, _⟩
      · cases hf
        exact ⟨_, _, _, rfl, hread, hext⟩
      · exact absurd rfl (hother f)

end PipeSheet
