import PipeSheet.Proofs.Safety.Reading
import PipeSheet.Proofs.Text.Lines
/-!
# PipeSheet.Proofs.Table.Shape

**Every piece of a source is in its place of the table, and nothing else is there.**

Here the table of a source is described without the reader: by the lines of the source and the
pieces of each line, as plain splitting gives them, and by the bytes that stand in front of a piece.
A place is empty when its line ends before it. Otherwise the cell is that of the piece, which says
nothing about other pieces: the formula of a piece is the one that it has when it is read alone.

* `length_pieceRows`, `width_pieceRows`: the shape of a source;
* `textBefore`, `pieceAt?_eq`: the piece in a place, and what stands in front of it;
* `Cell.IsOf`: the cell of a piece;
* `Table.grid_of_read`: the law.
-/

namespace PipeSheet

open Formula (NodeId Reads Store)
open Text (Piece byteLength)

variable {source : List Char} {store : Store} {p : Position}

/-! ### Shape -/

theorem length_pieceRows (source : List Char) : (pieceRows source).length =
    source.count '\n' + if source ≠ [] ∧ source.getLast? ≠ some '\n' then 1 else 0 := by
  rw [pieceRows, List.length_map, Text.length_locate, Text.length_lines]

/-- The width is the length of the longest row, and zero if there are none. -/
theorem width_eq_max {α : Type} (rows : List (List α)) :
    width rows = (rows.map List.length).max?.getD 0 := by
  rw [width, List.foldl_max, Nat.zero_max]

theorem width_pieceRows (source : List Char) : width (pieceRows source) =
    ((Text.lines source).map fun line => (line.splitOn '|').length).max?.getD 0 := by
  have hlengths : (pieceRows source).map List.length =
      (Text.lines source).map fun line => (line.splitOn '|').length := by
    conv => rhs; rw [← Text.map_text_locate 0 (Text.lines source)]
    simp only [pieceRows, List.map_map]
    refine List.map_congr_left fun line _ => ?_
    simp [cellSeparator, Text.pieces_eq_splitOn]
  rw [width_eq_max, hlengths]

/-! ### Pieces -/

/-- What stands in front of the piece at a position: the lines above it and the pieces to its left,
each with its separator. -/
def textBefore (source line : List Char) (p : Position) : List Char :=
  Text.ended '\n' ((source.splitOn '\n').take p.row) ++
    Text.ended '|' ((line.splitOn '|').take p.col)

/-- The piece in a place is the one that splitting gives, at the offset where what stands in front
of it ends. -/
theorem pieceAt?_eq {line : List Char} (h : (Text.lines source)[p.row]? = some line) :
    pieceAt? source p = (line.splitOn '|')[p.col]?.map fun text =>
      ⟨byteLength (textBefore source line p), text⟩ := by
  have hrow : p.row < (Text.lines source).length := (List.getElem?_eq_some_iff.1 h).1
  have habove : (Text.lines source).take p.row = (source.splitOn '\n').take p.row := by
    rw [Text.lines_eq_take, List.take_take, Nat.min_eq_left (Nat.le_of_lt hrow)]
  have hend : ('\n').utf8Size = 1 := by decide
  have hbar : cellSeparator.utf8Size = 1 := by decide
  rw [pieceAt?, pieceRows, List.getElem?_map, Text.getElem?_locate hend, h, habove,
    Option.map_some, Option.map_some, Option.bind_some, Text.getElem?_locate hbar,
    Text.pieces_eq_splitOn]
  simp [textBefore, cellSeparator]

/-! ### Cells -/

/-- The cell of a piece, when some bytes stand in front of the piece: a formula if it begins with
its mark, with the tree that its text has when it is read alone; a number if all of it reads as one;
and otherwise the text, with its place in the source. -/
def Cell.IsOf (source : List Char) (store : Store) (start : Nat) (piece : List Char) (cell : Cell) :
    Prop :=
  let content := Text.trim piece
  if content.head? = some formulaMark then
    ∃ root alone own tree, cell = .formula { root } ∧
      Formula.read content.tail .empty = (.ok alone, own) ∧
      own.tree? alone = some tree ∧ store.tree? root = some tree
  else
    match Number.read? content with
    | some v => cell = .number v
    | none => ∃ span, cell = .text span content ∧ span.slice? source = some content ∧
        span = .ofRange (start + byteLength (Text.indent piece))
          (start + byteLength (Text.indent piece) + byteLength content)

/-- What a formula says it says alone as well. -/
theorem Formula.Reads.exists_alone {text : List Char} {root : NodeId} (h : Reads text store root)
    (hsize : text.length ≤ 2 ^ 32) :
    ∃ alone own tree, Formula.read text .empty = (.ok alone, own) ∧
      own.tree? alone = some tree ∧ store.tree? root = some tree := by
  have hle := Formula.size_read_le text .empty
  rw [Store.size_empty, Nat.zero_add] at hle
  cases hread : Formula.read text .empty with
  | mk result own =>
      rw [hread] at hle
      cases result with
      | error e =>
          rw [Formula.read_eq, Formula.finish, h.complete] at hread
          cases hread
      | ok alone =>
          have halone := Formula.read_spec hread (Nat.le_trans hle hsize)
          exact ⟨alone, own, _, rfl, halone.tree?_eq, h.tree?_eq⟩

/-- What becomes of a piece is the cell of the piece. -/
theorem Written.isOf {piece : Piece} {cell : Cell} (h : Written store (some piece) cell)
    (hwithin : piece.Within 0 source) (hsize : byteLength source < 2 ^ 32) :
    cell.IsOf source store piece.start piece.text := by
  cases h with
  | formula hmark hreads =>
      have hlength : (Text.trim piece.text).tail.length ≤ 2 ^ 32 := by
        have hbytes := Text.length_le_byteLength source
        have htrim := Text.length_trim_le piece.text
        obtain ⟨front, back, hsource, _⟩ := hwithin
        have hpiece := congrArg List.length hsource
        simp only [List.length_append, List.length_tail] at hpiece ⊢
        omega
      obtain ⟨alone, own, tree, hread, halone, htree⟩ := hreads.exists_alone hlength
      rw [Cell.IsOf, if_pos hmark]
      exact ⟨_, alone, own, tree, rfl, hread, halone, htree⟩
  | number hmark hvalue =>
      rw [Cell.IsOf, if_neg hmark, hvalue]
  | text hmark hvalue =>
      rw [Cell.IsOf, if_neg hmark, hvalue]
      exact ⟨_, rfl, slice?_of_within hwithin hsize, rfl⟩

/-! ### The law -/

/-- A place is empty when its line ends before it. -/
theorem Table.ReadsAs.get?_eq_empty_iff {t : Table} (h : t.ReadsAs source store) :
    t.get? p = some .empty ↔ t.Contains p ∧ pieceAt? source p = none := by
  constructor
  · intro hp
    have hwritten := h.written hp
    refine ⟨contains_of_get? hp, ?_⟩
    cases hpiece : pieceAt? source p with
    | none => rfl
    | some piece =>
        rw [hpiece] at hwritten
        cases hwritten
  · intro ⟨hin, hpiece⟩
    obtain ⟨cell, hp⟩ := exists_get?_of_contains hin
    have hwritten := h.written hp
    rw [hpiece] at hwritten
    cases hwritten
    exact hp

/-- A piece has a place, and the cell there is that of the piece. -/
theorem Table.ReadsAs.exists_isOf {t : Table} (h : t.ReadsAs source store)
    (hsize : byteLength source < 2 ^ 32) {piece : Piece} (hpiece : pieceAt? source p = some piece) :
    ∃ cell, t.get? p = some cell ∧ cell.IsOf source store piece.start piece.text := by
  obtain ⟨hrow, hcol⟩ := lt_of_pieceAt? hpiece
  have hin : t.Contains p := ⟨h.rows_eq ▸ hrow, h.cols_eq ▸ hcol⟩
  obtain ⟨cell, hp⟩ := exists_get?_of_contains hin
  have hwritten := h.written hp
  rw [hpiece] at hwritten
  exact ⟨cell, hp, hwritten.isOf (within_of_pieceAt? hpiece) hsize⟩

/-- The table of a source has a row for every line end, and one more for what stands behind the last
of them; it has as many columns as the line with the most pieces. In the row of a line, a place is
empty exactly if the line has no piece there, and the cell of a piece is determined by the piece.
And this is what comes out when the shape is found first and then every piece is written to its
index. The store may have held nodes before; every node must have an id. -/
theorem Table.grid_of_read {before : Store} {t : Table} (hsource : byteLength source < 2 ^ 32)
    (hread : Table.read source before = (.ok t, store)) (hstore : store.size < 2 ^ 32) :
    let lines := (source.splitOn '\n').take t.rows
    t.rows = source.count '\n' + (if source ≠ [] ∧ source.getLast? ≠ some '\n' then 1 else 0) ∧
    t.cols = (lines.map fun line => (line.splitOn '|').length).max?.getD 0 ∧
    (∀ r < t.rows, ∃ line, lines[r]? = some line ∧
      (∀ c, t.get? ⟨r, c⟩ = some .empty ↔ c < t.cols ∧ (line.splitOn '|').length ≤ c) ∧
      ∀ c piece, (line.splitOn '|')[c]? = some piece → ∃ cell, t.get? ⟨r, c⟩ = some cell ∧
        cell.IsOf source store (byteLength (textBefore source line ⟨r, c⟩)) piece) ∧
    Checked.readTable source before = .ok (.ok t, store) := by
  have hreads := Table.readsAs_of_size_le hread (Nat.le_of_lt hstore)
  have hrows : t.rows = (Text.lines source).length := by
    rw [hreads.rows_eq, pieceRows, List.length_map, Text.length_locate]
  intro lines
  have hlines : lines = Text.lines source := by
    rw [Text.lines_eq_take, ← hrows]
  refine ⟨hreads.rows_eq.trans (length_pieceRows source), ?_, fun r hr => ?_, ?_⟩
  · rw [hlines]
    exact hreads.cols_eq.trans (width_pieceRows source)
  · obtain ⟨line, hline⟩ : ∃ line, (Text.lines source)[r]? = some line :=
      ⟨_, List.getElem?_eq_getElem (hrows ▸ hr)⟩
    refine ⟨line, by rwa [hlines], fun c => ?_, fun c piece hpiece => ?_⟩
    · rw [hreads.get?_eq_empty_iff, pieceAt?_eq hline, Option.map_eq_none_iff,
        List.getElem?_eq_none_iff]
      exact and_congr_left' (and_iff_right hr)
    · have hplace := pieceAt?_eq (p := ⟨r, c⟩) hline
      rw [hpiece] at hplace
      exact hreads.exists_isOf hsource hplace
  · rw [Checked.readTable_eq_of_size hsource (by rw [hread]; exact hstore), hread]

/-- A blank line, blanks of several bytes, and a line end at the end. -/
theorem Table.grid_of_read_of_ragged :
    ∃ t store, Table.read "é|\u3000ü \n\n1.5|=A0+2|\n".toList .empty = (.ok t, store) ∧
      store.size < 2 ^ 32 ∧ t.rows = 3 ∧ t.cols = 3 ∧ t.get? ⟨1, 1⟩ = some .empty ∧
      ∃ cell, t.get? ⟨0, 1⟩ = some cell ∧
        cell.IsOf "é|\u3000ü \n\n1.5|=A0+2|\n".toList store 3 "\u3000ü ".toList := by
  have hcheck : Table.readsTo "é|\u3000ü \n\n1.5|=A0+2|\n".toList (fun _ store =>
      decide (store.size < 2 ^ 32)) = true := by decide +kernel
  obtain ⟨t, store, hread, hcheck⟩ := Table.exists_of_readsTo hcheck
  have hstore := of_decide_eq_true hcheck
  obtain ⟨hrows, hcols, hplaces, _⟩ := Table.grid_of_read (by decide +kernel) hread hstore
  have hrows : t.rows = 3 := hrows.trans (by decide +kernel)
  rw [hrows] at hcols hplaces
  have hcols : t.cols = 3 := hcols.trans (by decide +kernel)
  obtain ⟨first, hfirst, _, hpieces⟩ := hplaces 0 (by decide)
  obtain ⟨blank, hblank, hempty, _⟩ := hplaces 1 (by decide)
  cases hfirst.symm.trans (show _ = some "é|\u3000ü ".toList by decide +kernel)
  cases hblank.symm.trans (show _ = some [] by decide +kernel)
  refine ⟨t, store, hread, hstore, hrows, hcols, (hempty 1).2 ⟨by omega, by decide⟩, ?_⟩
  exact hpieces 1 "\u3000ü ".toList (by decide +kernel)

end PipeSheet
