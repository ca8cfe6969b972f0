import PipeSheet.Proofs.Number.FixedText
import PipeSheet.Proofs.Table.Numbering
import PipeSheet.Proofs.Text.Characters
/-!
# PipeSheet.Proofs.Sheet.Rendering

**The text of a grid has the texts of its values as its pieces.**

A value has to fit into a cell for this: what is written for it must contain no separator, or it
would become two cells, and have no blanks at its ends and no mark in front, or it would be read as
another text or as a formula. Numbers fit, and so do the texts that come from cells.

* `Fits`, `Grid.Fits`: texts and grids of that kind;
* `Grid.rows_render`, `Grid.cols_render`, `Grid.text_pieceAt?_render`: shape and pieces of the text
  of a grid.
-/

namespace PipeSheet

open Text (Piece)

/-! ### Widths -/

theorem width_eq {α : Type} {rows : List (List α)} {cols : Nat} (hne : rows ≠ [])
    (h : ∀ row ∈ rows, row.length = cols) : width rows = cols := by
  refine Nat.le_antisymm (width_le fun row hrow => Nat.le_of_eq (h row hrow)) ?_
  obtain ⟨row, hrow⟩ := List.exists_mem_of_ne_nil rows hne
  exact h row hrow ▸ length_le_width hrow

/-- The width is that of the lengths. -/
theorem width_congr {α β : Type} {rows : List (List α)} {rows' : List (List β)}
    (h : rows.map List.length = rows'.map List.length) : width rows = width rows' := by
  rw [width, width, h]

namespace Grid

variable {g : Grid} {r : Nat}

theorem exists_of_mem_row {v : Value} (hr : r < g.rows) (h : v ∈ g.row r) :
    ∃ p, g.get? p = some v := by
  obtain ⟨c, hc⟩ := List.mem_iff_getElem?.1 h
  exact ⟨⟨r, c⟩, getElem?_row hr c ▸ hc⟩

/-- The text of a grid depends on its shape and on the texts of its values only. -/
theorem render_congr {g' : Grid} {n : Nat} (hrows : g.rows = g'.rows) (hcols : g.cols = g'.cols)
    (h : ∀ p, (g.get? p).map (Value.render n) = (g'.get? p).map (Value.render n)) :
    g.render n = g'.render n := by
  have hrow : ∀ r, r < g.rows → renderRow n (g.row r) = renderRow n (g'.row r) := by
    intro r hr
    have hmap : (g.row r).map (Value.render n) = (g'.row r).map (Value.render n) := by
      refine List.ext_getElem? fun c => ?_
      rw [List.getElem?_map, List.getElem?_map, getElem?_row hr, getElem?_row (hrows ▸ hr), h]
    rw [renderRow, renderRow, hmap]
  rw [render, render, toRows_eq, toRows_eq, ← hrows, ← hcols, List.flatMap_map, List.flatMap_map,
    List.flatMap_def, List.flatMap_def, List.map_congr_left fun r hr => hrow r ?_]
  have hlt := List.mem_range.1 hr
  split at hlt
  · omega
  · exact hlt

end Grid

/-! ### Texts that fit into a cell -/

/-- A text that stands in a cell as it is. -/
structure Fits (content : List Char) : Prop where
  trim_eq : Text.trim content = content
  not_mem_separator : cellSeparator ∉ content
  not_mem_lineEnd : '\n' ∉ content
  not_marked : content.head? ≠ some formulaMark

theorem fits_nil : Fits [] :=
  ⟨rfl, List.not_mem_nil, List.not_mem_nil, by simp⟩

theorem not_isBlank_of_isDigit {c : Char} (h : c.isDigit) : ¬ Text.isBlank c := by
  intro hblank
  have hnone := Text.not_isAlphanum_of_isBlank hblank
  rw [Char.isAlphanum, h, Bool.or_true] at hnone
  cases hnone

/-- The text of a number fits. -/
theorem fits_fixed (n : Nat) (x : Float) : Fits (Number.fixed n x) := by
  have hsigns : ∀ c ∈ ['-', '.', 'N', 'a', 'i', 'n', 'f'],
      ¬ Text.isBlank c ∧ c ≠ cellSeparator ∧ c ≠ '\n' ∧ c ≠ formulaMark := by
    simp [Text.isBlank, Text.blankRanges, cellSeparator, formulaMark]
  have hchar : ∀ c ∈ Number.fixed n x,
      ¬ Text.isBlank c ∧ c ≠ cellSeparator ∧ c ≠ '\n' ∧ c ≠ formulaMark := by
    intro c hc
    rcases Number.mem_fixed hc with h | h
    · refine ⟨not_isBlank_of_isDigit h, ?_, ?_, ?_⟩
      all_goals
        rintro rfl
        exact absurd h (by decide)
    · exact hsigns c h
  refine ⟨Text.trim_eq_self fun c hc => (hchar c hc).1, fun h => (hchar _ h).2.1 rfl,
    fun h => (hchar _ h).2.2.1 rfl, fun h => ?_⟩
  exact (hchar _ (List.mem_of_mem_head? h)).2.2.2 rfl

/-- A value that is written as it is read: a text fits and is not that of a number. -/
def Value.Fits (v : Value) : Prop :=
  ∀ content, v = .text content → PipeSheet.Fits content ∧ Number.read? content = none

theorem Value.Fits.render {v : Value} (h : v.Fits) (n : Nat) : PipeSheet.Fits (v.render n) := by
  cases v with
  | empty => exact fits_nil
  | text content => exact (h content rfl).1
  | number x => exact fits_fixed n x

/-- A grid whose values fit, and with cells in its rows if it has rows. -/
structure Grid.Fits (g : Grid) : Prop where
  values : ∀ {p : Position} {v : Value}, g.get? p = some v → v.Fits
  cols_eq_zero : g.rows = 0 → g.cols = 0
  cols_pos : 0 < g.rows → 0 < g.cols

/-! ### The pieces of the text of a grid -/

/-- The texts of the pieces are those of the lines. -/
theorem map_text_pieceRows (source : List Char) :
    (pieceRows source).map (List.map Piece.text) =
      (Text.lines source).map (Text.pieces cellSeparator) := by
  rw [pieceRows, List.map_map]
  conv => rhs; rw [← Text.map_text_locate 0 (Text.lines source), List.map_map]
  refine List.map_congr_left fun line _ => ?_
  exact Text.map_text_locate _ _

namespace Grid

variable {g : Grid} {n : Nat}

theorem render_eq (n : Nat) (g : Grid) : g.render n =
    (g.toRows.map fun row => [cellSeparator].intercalate (row.map (Value.render n))).flatMap
      fun line => line ++ ['\n'] := by
  rw [List.flatMap_map]
  rfl

/-- The pieces are the texts of the values. -/
theorem Fits.map_text_pieceRows (hg : g.Fits) (n : Nat) :
    (pieceRows (g.render n)).map (List.map Piece.text) =
      g.toRows.map (List.map (Value.render n)) := by
  have hfits : ∀ row ∈ g.toRows, ∀ text ∈ row.map (Value.render n), PipeSheet.Fits text := by
    intro row hrow text htext
    obtain ⟨r, hr, rfl⟩ := exists_of_mem_toRows hrow
    obtain ⟨v, hv, rfl⟩ := List.mem_map.1 htext
    obtain ⟨p, hp⟩ := exists_of_mem_row hr hv
    exact (hg.values hp).render n
  have hlines : ∀ line ∈ g.toRows.map fun row =>
      [cellSeparator].intercalate (row.map (Value.render n)), '\n' ∉ line := by
    intro line hline hmem
    obtain ⟨row, hrow, rfl⟩ := List.mem_map.1 hline
    rcases Text.mem_intercalate hmem with h | ⟨text, htext, h⟩
    · exact absurd h (by decide)
    · exact (hfits row hrow text htext).not_mem_lineEnd h
  rw [PipeSheet.map_text_pieceRows, render_eq, Text.lines_flatMap hlines, List.map_map]
  refine List.map_congr_left fun row hrow => ?_
  refine Text.pieces_intercalate ?_ fun text htext => (hfits row hrow text htext).not_mem_separator
  obtain ⟨r, hr, rfl⟩ := exists_of_mem_toRows hrow
  have hpos := hg.cols_pos (Nat.zero_lt_of_lt hr)
  rw [← length_row hr] at hpos
  simpa using List.ne_nil_of_length_pos hpos

theorem Fits.rows_render (hg : g.Fits) (n : Nat) : (pieceRows (g.render n)).length = g.rows := by
  have h := congrArg List.length (hg.map_text_pieceRows n)
  rwa [List.length_map, List.length_map, length_toRows hg.cols_pos] at h

theorem Fits.cols_render (hg : g.Fits) (n : Nat) : width (pieceRows (g.render n)) = g.cols := by
  have hlengths : (pieceRows (g.render n)).map List.length = g.toRows.map List.length := by
    have h := congrArg (List.map List.length) (hg.map_text_pieceRows n)
    simpa [Function.comp_def] using h
  rw [width_congr hlengths]
  rcases Nat.eq_zero_or_pos g.rows with h0 | hpos
  · rw [toRows_eq, h0, hg.cols_eq_zero h0]
    rfl
  · have hne : g.toRows ≠ [] := List.ne_nil_of_length_pos (by rwa [length_toRows hg.cols_pos])
    refine width_eq hne fun row hrow => ?_
    obtain ⟨r, hr, rfl⟩ := exists_of_mem_toRows hrow
    exact length_row hr

theorem Fits.text_pieceAt?_render (hg : g.Fits) (n : Nat) (p : Position) :
    (pieceAt? (g.render n) p).map Piece.text = (g.get? p).map (Value.render n) := by
  have hrows := congrArg (fun rows => rows[p.row]?) (hg.map_text_pieceRows n)
  simp only [List.getElem?_map] at hrows
  have hpiece : (pieceAt? (g.render n) p).map Piece.text =
      ((pieceRows (g.render n))[p.row]?.map (List.map Piece.text)).bind fun row => row[p.col]? := by
    rw [pieceAt?]
    cases (pieceRows (g.render n))[p.row]? with
    | none => rfl
    | some row => simp
  rw [hpiece, hrows]
  rcases Nat.lt_or_ge p.row g.rows with hr | hr
  · rw [getElem?_toRows hr (hg.cols_pos (Nat.zero_lt_of_lt hr)), Option.map_some, Option.bind_some,
      List.getElem?_map, getElem?_row hr]
  · rw [List.getElem?_eq_none (by rwa [length_toRows hg.cols_pos]), get?,
      if_neg fun h => Nat.not_lt.2 hr h.1]
    rfl

end Grid

end PipeSheet
