import Mathlib.Data.List.Nodup
import PipeSheet.Proofs.Sheet.Grid
import PipeSheet.Proofs.Table.Reading
/-!
# PipeSheet.Proofs.Table.Numbering

**Places are counted row by row, and everywhere in the same way.**

The index of a cell, the list of positions, the index of a value in a grid and the rows that a grid
is cut into are computed one without the other. They agree because inside a table the index
increases with the position: so it is the same for no two of them, and the positions that are listed
have the indices from zero on. For the rows there is one more thing to know. They are found from the
number of columns alone, and a table that was read has no columns only if it has no rows.

* `Position.lt_of_index_lt`: indices and positions are ordered in the same way;
* `Table.getElem?_positions_eq_some_iff`: the position with an index;
* `Grid.toRows_eq`, `Grid.getElem?_row`: the rows of a grid and the values in them;
* `Cell.Shows`: what a cell shows;
* `Table.numbering_of_read`: the law.
-/

namespace PipeSheet

open Formula (Store)

/-! ### Positions -/

/-- The position with the smaller index is the smaller one. -/
theorem Position.lt_of_index_lt {p q : Position} {cols : Nat} (hq : q.col < cols)
    (h : p.row * cols + p.col < q.row * cols + q.col) : p < q := by
  rcases Nat.lt_trichotomy p.row q.row with hrow | hrow | hrow
  · exact .inl hrow
  · rw [hrow] at h
    exact .inr ⟨hrow, by omega⟩
  · have hle := Nat.mul_le_mul_right cols (Nat.succ_le_of_lt hrow)
    rw [Nat.succ_mul] at hle
    omega

theorem Position.ne_of_lt {p q : Position} (h : p < q) : p ≠ q := by
  intro heq
  rw [heq, Position.lt_iff] at h
  omega

namespace Table

variable {t : Table} {p q : Position} {i : Nat}

theorem mem_positions : p ∈ t.positions ↔ t.Contains p := by
  obtain ⟨row, col⟩ := p
  simp [positions, Contains]

theorem length_positions (t : Table) : t.positions.length = t.cells.size := by
  simp only [positions, t.size_cells, List.length_flatMap, List.length_map, List.length_range,
    List.map_const', List.sum_replicate_nat]

/-- Row by row, the positions have the indices of the cells. -/
theorem map_index_positions (t : Table) : t.positions.map t.index = List.range t.cells.size := by
  have key : ∀ rows cols : Nat, ((List.range rows).flatMap fun r =>
      (List.range cols).map fun c => r * cols + c) = List.range (rows * cols) := by
    intro rows cols
    induction rows with
    | zero => simp
    | succ n ih =>
        rw [List.range_succ, List.flatMap_append, ih, List.flatMap_singleton, Nat.succ_mul,
          List.range_add]
  rw [t.size_cells, ← key, positions, List.map_flatMap]
  simp only [List.map_map]
  rfl

/-- Row by row, the positions have the cells of the table. -/
theorem map_get?_positions (t : Table) : t.positions.map t.get? = t.cells.toList.map some := by
  have hget : t.positions.map t.get? = (t.positions.map t.index).map (t.cells[·]?) := by
    rw [List.map_map]
    exact List.map_congr_left fun p hp => get?_of_contains (mem_positions.1 hp)
  rw [hget, map_index_positions]
  refine List.ext_getElem (by simp) fun i _ _ => ?_
  simp

theorem index_of_getElem?_positions (h : t.positions[i]? = some p) : t.index p = i := by
  have hindex := congrArg (·[i]?) t.map_index_positions
  have hlt := (List.getElem?_eq_some_iff.1 h).1
  rw [length_positions] at hlt
  simpa [h, hlt] using hindex

/-- Every index of a cell is that of one position, and there it is listed. -/
theorem getElem?_positions_eq_some_iff :
    t.positions[i]? = some p ↔ t.Contains p ∧ t.index p = i := by
  constructor
  · intro h
    exact ⟨mem_positions.1 (List.mem_of_getElem? h), index_of_getElem?_positions h⟩
  · intro ⟨hp, hi⟩
    have hlt : i < t.positions.length := by
      rw [length_positions, ← hi]
      exact index_lt hp
    have hfound := List.getElem?_eq_getElem hlt
    have hin := mem_positions.1 (List.getElem_mem hlt)
    rw [hfound, index_inj hp hin (hi.trans (index_of_getElem?_positions hfound).symm)]

theorem pairwise_positions (t : Table) : t.positions.Pairwise (· < ·) := by
  refine List.pairwise_iff_getElem.2 fun i j hi hj hlt => ?_
  obtain ⟨hp, hpi⟩ := getElem?_positions_eq_some_iff.1 (List.getElem?_eq_getElem hi)
  obtain ⟨hq, hqj⟩ := getElem?_positions_eq_some_iff.1 (List.getElem?_eq_getElem hj)
  refine Position.lt_of_index_lt hq.2 ?_
  rw [← hpi, ← hqj] at hlt
  exact hlt

theorem count_positions (t : Table) (p : Position) :
    t.positions.count p = if t.Contains p then 1 else 0 := by
  have hnodup : t.positions.Nodup := t.pairwise_positions.imp Position.ne_of_lt
  split
  · next h => exact List.count_eq_one_of_mem hnodup (mem_positions.2 h)
  · next h => exact List.count_eq_zero_of_not_mem (mt mem_positions.1 h)

/-- In the same order stand the cells. -/
theorem getElem?_cells_eq_bind (t : Table) (i : Nat) :
    t.cells[i]? = t.positions[i]?.bind t.get? := by
  have hcells := congrArg (·[i]?) t.map_get?_positions
  simp only [List.getElem?_map, Array.getElem?_toList] at hcells
  cases hp : t.positions[i]? with
  | none =>
      rw [hp] at hcells
      exact Option.map_eq_none_iff.1 hcells.symm
  | some p =>
      rw [hp] at hcells
      obtain ⟨cell, hcell, hget⟩ := Option.map_eq_some_iff.1 hcells.symm
      rw [hcell, Option.bind_some, ← hget]

end Table

/-! ### Rows -/

/-- Values for some full stretches are cut into these stretches. -/
theorem chunks_eq {α : Type} {values : Array α} {rows n : Nat} (hn : 0 < n)
    (h : values.size = rows * n) : chunks n values =
      (List.range rows).map fun r => (values.extract (r * n) ((r + 1) * n)).toList := by
  have hcount : (values.size + n - 1) / n = rows := by
    rw [h, Nat.add_sub_assoc hn, Nat.mul_comm, Nat.mul_add_div hn, Nat.div_eq_of_lt (by omega),
      Nat.add_zero]
  rw [chunks, hcount]

namespace Grid

variable {g : Grid} {r : Nat}

/-- The values of one row. -/
def row (g : Grid) (r : Nat) : List Value :=
  (g.values.extract (r * g.cols) ((r + 1) * g.cols)).toList

theorem toRows_eq (g : Grid) :
    g.toRows = (List.range (if g.cols = 0 then 0 else g.rows)).map g.row := by
  have hsize := g.size_values
  unfold toRows
  split
  · next hcols =>
    have hnone : g.values.size = 0 * max g.cols 1 := by simp [hsize, hcols]
    rw [chunks_eq (by omega) hnone]
    rfl
  · next hcols =>
    rw [Nat.max_eq_left (by omega), chunks_eq (by omega) hsize]
    rfl

theorem length_row (hr : r < g.rows) : (g.row r).length = g.cols := by
  have hend : (r + 1) * g.cols ≤ g.values.size := by
    rw [g.size_values]
    exact Nat.mul_le_mul_right _ hr
  rw [row, Array.length_toList, Array.size_extract, Nat.min_eq_left hend, Nat.succ_mul,
    Nat.add_sub_cancel_left]

theorem getElem?_row (hr : r < g.rows) (c : Nat) : (g.row r)[c]? = g.get? ⟨r, c⟩ := by
  have hlength := length_row hr
  rcases Nat.lt_or_ge c g.cols with hc | hc
  · have hlt : c < min ((r + 1) * g.cols) g.values.size - r * g.cols := by
      rw [row, Array.length_toList, Array.size_extract] at hlength
      rwa [hlength]
    rw [get?, if_pos ⟨hr, hc⟩, row, Array.getElem?_toList, Array.getElem?_extract, if_pos hlt]
  · rw [get?, if_neg fun h => Nat.not_lt.2 hc h.2, List.getElem?_eq_none (by omega)]

theorem length_toRows (h : 0 < g.rows → 0 < g.cols) : g.toRows.length = g.rows := by
  rw [toRows_eq, List.length_map, List.length_range]
  split
  · omega
  · rfl

theorem getElem?_toRows (hr : r < g.rows) (hcols : 0 < g.cols) : g.toRows[r]? = some (g.row r) := by
  rw [toRows_eq, if_neg (by omega)]
  simp [hr]

theorem exists_of_mem_toRows {row : List Value} (h : row ∈ g.toRows) :
    ∃ r, r < g.rows ∧ row = g.row r := by
  rw [toRows_eq] at h
  obtain ⟨r, hr, rfl⟩ := List.mem_map.1 h
  have hlt := List.mem_range.1 hr
  split at hlt
  · omega
  · exact ⟨r, hlt, rfl⟩

end Grid

/-! ### The law -/

/-- What a cell shows: a text or a number itself, and a formula its value once it is evaluated. -/
inductive Cell.Shows : Cell → Value → Prop
  | empty : Shows .empty .empty
  | text (span : Span) (content : List Char) : Shows (.text span content) (.text content)
  | number (value : Float) : Shows (.number value) (.number value)
  | evaluated {f : FormulaCell} : f.status = .evaluated → Shows (.formula f) (.number f.value)
  | pending {f : FormulaCell} : f.status ≠ .evaluated → Shows (.formula f) .empty

theorem Cell.shows_iff {cell : Cell} {value : Value} : cell.Shows value ↔ cell.value = value := by
  constructor
  · intro h
    cases h with
    | empty => rfl
    | text span content => rfl
    | number v => rfl
    | @evaluated f hstatus =>
        obtain ⟨root, status, v⟩ := f
        obtain rfl : status = .evaluated := hstatus
        rfl
    | @pending f hstatus =>
        obtain ⟨root, status, v⟩ := f
        cases status with
        | evaluated => exact absurd rfl hstatus
        | _ => rfl
  · intro h
    subst h
    cases cell with
    | empty => exact .empty
    | text span content => exact .text span content
    | number v => exact .number v
    | formula f =>
        obtain ⟨root, status, v⟩ := f
        cases status with
        | evaluated => exact .evaluated rfl
        | unevaluated => exact .pending nofun
        | inProgress => exact .pending nofun

namespace Table

variable {source : List Char} {before store : Store} {t t' : Table}

/-- A table with rows has columns. -/
theorem cols_pos_of_read (h : Table.read source before = (.ok t, store)) (hrows : 0 < t.rows) :
    0 < t.cols := by
  obtain ⟨hlength, hwidth⟩ := shape_of_read h
  rw [hwidth]
  exact width_pieceRows_pos (hlength ▸ hrows)

/-- Let a table have the shape of one that was read, whatever its cells hold by now. Its positions
are the ones that it contains, each of them once and in ascending order, and the place of a position
in the list is the index of its cell. Its grid shows something at these positions only, namely what
the cell there shows. There are as many rows to show as it has, each as long as it has columns, and
in a row stand the values at the positions of that row. No two positions share an index, and setting
the formula at one of them leaves the cells at the others as they are. -/
theorem numbering_of_read (hread : Table.read source before = (.ok t', store))
    (hrows : t.rows = t'.rows) (hcols : t.cols = t'.cols) :
    (∀ p, t.positions.count p = if t.Contains p then 1 else 0) ∧
    t.positions.Pairwise (· < ·) ∧
    (∀ i p, t.positions[i]? = some p ↔ t.Contains p ∧ t.index p = i) ∧
    (∀ i : Nat, t.cells[i]? = t.positions[i]?.bind t.get?) ∧
    (∀ p, (∃ value, t.toGrid.get? p = some value) ↔ t.Contains p) ∧
    (∀ p value, t.toGrid.get? p = some value ↔ ∃ cell, t.get? p = some cell ∧ cell.Shows value) ∧
    t.toGrid.toRows.length = t.rows ∧
    (∀ (r : Nat) row, t.toGrid.toRows[r]? = some row →
      row.length = t.cols ∧ ∀ c < t.cols, row[c]? = t.toGrid.get? ⟨r, c⟩) ∧
    ∀ p q, t.Contains p → t.Contains q → p ≠ q → t.index p ≠ t.index q ∧
      ∀ status value, (t.setFormula p status value).get? q = t.get? q := by
  have hcolumns : 0 < t.rows → 0 < t.cols := by
    intro hpos
    rw [hcols]
    exact cols_pos_of_read hread (hrows ▸ hpos)
  have hshown : ∀ p value, t.toGrid.get? p = some value ↔
      ∃ cell, t.get? p = some cell ∧ cell.Shows value := by
    intro p value
    simp only [get?_toGrid, Option.map_eq_some_iff, Cell.shows_iff]
  have hlength : t.toGrid.toRows.length = t.rows := Grid.length_toRows hcolumns
  refine ⟨t.count_positions, t.pairwise_positions, fun i p => getElem?_positions_eq_some_iff,
    t.getElem?_cells_eq_bind, fun p => ?_, hshown, hlength, fun r row hrow => ?_,
    fun p q hp hq hne => ?_⟩
  · constructor
    · intro ⟨value, hvalue⟩
      obtain ⟨cell, hcell, _⟩ := (hshown p value).1 hvalue
      exact contains_of_get? hcell
    · intro hp
      exact Grid.exists_get? hp.1 hp.2
  · have hr : r < t.rows := hlength ▸ (List.getElem?_eq_some_iff.1 hrow).1
    rw [Grid.getElem?_toRows hr (hcolumns (Nat.zero_lt_of_lt hr)), Option.some_inj] at hrow
    subst hrow
    exact ⟨Grid.length_row hr, fun c _ => Grid.getElem?_row hr c⟩
  · refine ⟨fun h => hne (index_inj hp hq h), fun status value => ?_⟩
    rw [get?_setFormula t hp, if_neg (Ne.symm hne)]

/-- A row that is shorter than the other one, and a formula that was evaluated. -/
theorem numbering_of_read_of_evaluated :
    ∃ (t t' : Table) (store : Store), Table.read "7|x\n=A0".toList .empty = (.ok t', store) ∧
      t.rows = t'.rows ∧ t.cols = t'.cols ∧ t.Contains ⟨1, 0⟩ ∧ t.positions[2]? = some ⟨1, 0⟩ ∧
      t.toGrid.get? ⟨1, 0⟩ = some (.number 7) ∧ t.toGrid.toRows.length = 2 ∧
      (t.setFormula ⟨0, 0⟩ .inProgress 0).get? ⟨1, 0⟩ = t.get? ⟨1, 0⟩ := by
  have hcheck : Table.readsTo "7|x\n=A0".toList
      (fun t _ => t.rows = 2 && t.cols = 2 && ((t.get? ⟨1, 0⟩).getD .empty).isFormula) = true := by
    decide +kernel
  obtain ⟨t', store, hread, hshape⟩ := exists_of_readsTo hcheck
  simp only [Bool.and_eq_true, decide_eq_true_eq] at hshape
  obtain ⟨⟨hrows, hcols⟩, hformula⟩ := hshape
  obtain ⟨f, hf⟩ : ∃ f, t'.get? ⟨1, 0⟩ = some (.formula f) := by
    by_contra hnone
    rw [isFormula_getD_get? (not_exists.1 hnone)] at hformula
    cases hformula
  have hin : t'.Contains ⟨1, 0⟩ := contains_of_get? hf
  have hfirst : t'.Contains ⟨0, 0⟩ := ⟨Nat.zero_lt_of_lt hin.1, hin.2⟩
  have hcell : (t'.setFormula ⟨1, 0⟩ .evaluated 7).get? ⟨1, 0⟩ =
      some (.formula { f with status := .evaluated, value := 7 }) := by
    rw [get?_setFormula t' hin, if_pos rfl, hf]
    rfl
  obtain ⟨_, _, hplaces, _, _, hshown, hlength, _, happart⟩ :=
    numbering_of_read (t := t'.setFormula ⟨1, 0⟩ .evaluated 7) hread rfl rfl
  refine ⟨t'.setFormula ⟨1, 0⟩ .evaluated 7, t', store, hread, rfl, rfl, hin,
    (hplaces 2 ⟨1, 0⟩).2 ⟨hin, by simp [index, hcols]⟩,
    (hshown ⟨1, 0⟩ (.number 7)).2 ⟨_, hcell, .evaluated rfl⟩, hlength.trans hrows, ?_⟩
  exact (happart ⟨0, 0⟩ ⟨1, 0⟩ hfirst hin (by decide)).2 .inProgress 0

end Table

end PipeSheet
