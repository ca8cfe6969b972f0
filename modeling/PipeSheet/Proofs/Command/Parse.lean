import PipeSheet.Command.Basic
import PipeSheet.Proofs.Formula.Blanks
import PipeSheet.Proofs.Table.Reading
/-!
# PipeSheet.Proofs.Command.Parse

**Listing the nodes of a cell's text, and the formula of the cell.**

A table takes the blanks away on both sides of a piece before it removes the mark of a formula. The
command takes them away in front only, and leaves those behind to the formula, which knows fewer of
them as spaces. So both read the same formula, up to blanks behind it.

* `Table.read_piece`: a source that is one cell;
* `Table.read_single`, `Table.read_single_error`: a source that is one formula;
* `Command.stripMark_of_cell`: what the command reads instead of the formula of the cell;
* `Command.parseFormula_of_cell`: when it succeeds, what it lists then, and the error that only it
  has.
-/

namespace PipeSheet

open Formula (EndsByWord FormulaError NodeId Store spaces)
open Text (Piece byteLength indent isBlank trim trimStart)

variable {w : List Char} {store store' : Store} {root : NodeId} {e : FormulaError}

/-! ### A source that is one cell -/

theorem pieceRows_single (hne : w ≠ []) (hbar : '|' ∉ w) (hend : '\n' ∉ w) :
    pieceRows w = [[⟨0, w⟩]] := by
  have hpieces : Text.pieces '\n' w = [w] := by
    rw [Text.pieces_eq_splitOn, List.splitOn_eq_singleton hend]
  have hlines : Text.lines w = [w] := by
    rw [Text.lines, hpieces]
    simp [hne]
  rw [pieceRows, hlines]
  simp [Text.locate, cellSeparator, Text.pieces_eq_splitOn, List.splitOn_eq_singleton hbar]

theorem readCells_single (hrows : pieceRows w = [[⟨0, w⟩]]) (store : Store) :
    readCells #[] (slots w) store = match Cell.read ⟨0, w⟩ store with
      | (.ok cell, store) => (.ok #[cell], store)
      | (.error cause, store) => (.error ⟨⟨0, 0⟩, cause⟩, store) := by
  have hslots : slots w = [(⟨0, 0⟩, some ⟨0, w⟩)] := by
    rw [slots, hrows]
    rfl
  rw [hslots, readCells]
  obtain ⟨_ | _, _⟩ := Cell.read ⟨0, w⟩ store
  · rfl
  · rfl

/-- A source that is one piece has the cell of the piece. -/
theorem Table.read_piece {cell : Cell} (hrows : pieceRows w = [[⟨0, w⟩]])
    (h : Cell.read ⟨0, w⟩ store = (.ok cell, store')) :
    ∃ t, Table.read w store = (.ok t, store') ∧ t.source = w ∧ t.rows = 1 ∧ t.cols = 1 ∧
      t.cells = #[cell] := by
  have hcells := readCells_single hrows store
  rw [h] at hcells
  unfold Table.read
  split
  · next e after hread => cases hcells.symm.trans hread
  · next cells after hread =>
    cases hcells.symm.trans hread
    have hone : (pieceRows w).length = 1 ∧ width (pieceRows w) = 1 := by
      rw [hrows]
      exact ⟨rfl, rfl⟩
    exact ⟨_, rfl, rfl, hone.1, hone.2, rfl⟩

/-- A source that is one formula has the formula in its only cell. -/
theorem Table.read_single (hrows : pieceRows w = [[⟨0, w⟩]])
    (hmark : (trim w).head? = some formulaMark)
    (h : Formula.read (trim w).tail store = (.ok root, store')) :
    ∃ t, Table.read w store = (.ok t, store') ∧ t.rows = 1 ∧ t.cols = 1 ∧
      t.get? ⟨0, 0⟩ = some (.formula { root }) := by
  have hcell : Cell.read ⟨0, w⟩ store = (.ok (.formula { root }), store') := by
    unfold Cell.read
    dsimp only
    rw [if_pos hmark, h]
  obtain ⟨t, hread, _, hrow, hcol, hcells⟩ := Table.read_piece hrows hcell
  refine ⟨t, hread, hrow, hcol, ?_⟩
  rw [get?_of_contains ⟨Nat.lt_of_lt_of_eq Nat.one_pos hrow.symm,
    Nat.lt_of_lt_of_eq Nat.one_pos hcol.symm⟩, hcells]
  simp [index]

theorem Table.read_single_error (hrows : pieceRows w = [[⟨0, w⟩]])
    (hmark : (trim w).head? = some formulaMark)
    (h : (Formula.read (trim w).tail store).1 = .error e) :
    (Table.read w store).1 = .error ⟨⟨0, 0⟩, e⟩ := by
  have hcells := readCells_single hrows store
  unfold Cell.read at hcells
  dsimp only at hcells
  rw [if_pos hmark] at hcells
  generalize Formula.read (trim w).tail store = result at h hcells
  obtain ⟨_, after⟩ := result
  obtain rfl := h
  unfold Table.read
  split
  · next e' store₁ hread =>
    cases hcells.symm.trans hread
    rfl
  · next cells store₁ hread => cases hcells.symm.trans hread

theorem Table.read_single_iff (hrows : pieceRows w = [[⟨0, w⟩]])
    (hmark : (trim w).head? = some formulaMark) (store : Store) :
    (∃ t, (Table.read w store).1 = .ok t) ↔
      ∃ root, (Formula.read (trim w).tail store).1 = .ok root := by
  constructor
  · rintro ⟨t, ht⟩
    cases hread : (Formula.read (trim w).tail store).1 with
    | ok root => exact ⟨root, rfl⟩
    | error e => cases (Table.read_single_error hrows hmark hread).symm.trans ht
  · rintro ⟨root, hroot⟩
    obtain ⟨t, ht, _⟩ := Table.read_single hrows hmark (Prod.ext hroot rfl)
    exact ⟨t, congrArg Prod.fst ht⟩

namespace Command

/-! ### The command -/

/-- The command reads the formula of the cell with the blanks that stand behind it. -/
theorem stripMark_of_cell (hmark : (trim w).head? = some formulaMark) :
    ∃ blanks, (∀ c ∈ blanks, isBlank c) ∧ w = indent w ++ trim w ++ blanks ∧
      stripMark w = (trim w).tail ++ blanks := by
  obtain ⟨blanks, hblanks, hstart⟩ := Text.exists_trimStart_eq w
  refine ⟨blanks, hblanks, by rw [List.append_assoc, ← hstart, Text.indent_append_trimStart], ?_⟩
  obtain ⟨body, hbody⟩ := List.head?_eq_some_iff.1 hmark
  rw [stripMark, hstart, hbody]
  rfl

theorem parseFormula_eq_ok_iff {argument : List Char} {text : String} :
    parseFormula argument = .ok text ↔ ∃ root store,
      Formula.read (stripMark argument) .empty = (.ok root, store) ∧
        text = countLine store ++ nodeLines store ++ rootLines store root := by
  unfold parseFormula
  split
  · next e store hread =>
    refine iff_of_false nofun ?_
    rintro ⟨_, _, hok, _⟩
    cases hread.symm.trans hok
  · next root store hread =>
    constructor
    · intro h
      cases h
      exact ⟨root, store, hread, rfl⟩
    · rintro ⟨_, _, hok, rfl⟩
      cases hread.symm.trans hok
      rfl

theorem parseFormula_eq_error {argument : List Char}
    (h : (Formula.read (stripMark argument) .empty).1 = .error e) :
    parseFormula argument = .error (.formula e) := by
  unfold parseFormula
  split
  · next e' store hread =>
    rw [hread] at h
    cases h
    rfl
  · next root store hread =>
    rw [hread] at h
    cases h

/-- The command succeeds on the text of a formula cell exactly if the text reads as a table and the
blanks behind the formula are spaces of formulas, unless a word ends the sum in front of them. Then
it lists the nodes of the cell that the table has, its root, and its formula. If the text reads as a
table and the command fails, the first blank that is no space of formulas is its error. -/
theorem parseFormula_of_cell (hbar : '|' ∉ w) (hend : '\n' ∉ w)
    (hmark : (trim w).head? = some formulaMark) :
    ∃ blanks, (∀ c ∈ blanks, isBlank c) ∧ w = indent w ++ trim w ++ blanks ∧
      ((∃ text, parseFormula w = .ok text) ↔ (∃ t, (Table.read w .empty).1 = .ok t) ∧
        ((∀ c ∈ blanks, c ∈ spaces) ∨ EndsByWord (trim w).tail)) ∧
      (∀ text, parseFormula w = .ok text → ∃ t store f,
        Table.read w .empty = (.ok t, store) ∧ t.rows = 1 ∧ t.cols = 1 ∧
        t.get? ⟨0, 0⟩ = some (.formula f) ∧
        text = countLine store ++ nodeLines store ++ rootLines store f.root) ∧
      ((∃ t, (Table.read w .empty).1 = .ok t) → ¬ EndsByWord (trim w).tail →
        ∀ skipped c rest, blanks = skipped ++ c :: rest → (∀ d ∈ skipped, d ∈ spaces) → c ∉ spaces →
          parseFormula w = .error (.formula (.unrecognized
            ⟨c, .ofRange (byteLength ((trim w).tail ++ skipped))
              (byteLength ((trim w).tail ++ skipped ++ [c]))⟩))) := by
  have hne : w ≠ [] := by
    rintro rfl
    cases hmark
  have hrows := pieceRows_single hne hbar hend
  obtain ⟨blanks, hblanks, hw, hstrip⟩ := stripMark_of_cell hmark
  refine ⟨blanks, hblanks, hw, ?_, fun text htext => ?_, ?_⟩
  · rw [Table.read_single_iff hrows hmark, ← Formula.read_append_blanks_iff hblanks, ← hstrip]
    constructor
    · rintro ⟨text, htext⟩
      obtain ⟨root, store, hread, _⟩ := parseFormula_eq_ok_iff.1 htext
      exact ⟨root, congrArg Prod.fst hread⟩
    · rintro ⟨root, hroot⟩
      exact ⟨_, parseFormula_eq_ok_iff.2 ⟨root, _, Prod.ext hroot rfl, rfl⟩⟩
  · obtain ⟨root, store, hread, rfl⟩ := parseFormula_eq_ok_iff.1 htext
    rw [hstrip] at hread
    have hsame := Formula.read_append_blanks hblanks (congrArg Prod.fst hread)
    obtain ⟨t, ht, hone⟩ := Table.read_single hrows hmark (hsame.symm.trans hread)
    exact ⟨t, store, { root }, ht, hone.1, hone.2.1, hone.2.2, rfl⟩
  · rintro htable hword skipped c rest rfl hskipped hspace
    obtain ⟨root, hroot⟩ := (Table.read_single_iff hrows hmark .empty).1 htable
    refine parseFormula_eq_error ?_
    rw [hstrip]
    exact Formula.read_append_blanks_error hblanks hskipped hspace hword hroot

/-- A blank in front that formulas do not know, and spaces behind. -/
theorem parseFormula_of_cell_in_spaces :
    '|' ∉ "\u3000=A0+1\t ".toList ∧ '\n' ∉ "\u3000=A0+1\t ".toList ∧
      (trim "\u3000=A0+1\t ".toList).head? = some formulaMark ∧
      ∃ text t store f, parseFormula "\u3000=A0+1\t ".toList = .ok text ∧
        Table.read "\u3000=A0+1\t ".toList .empty = (.ok t, store) ∧
        t.get? ⟨0, 0⟩ = some (.formula f) ∧
        text = countLine store ++ nodeLines store ++ rootLines store f.root := by
  have hbar : '|' ∉ "\u3000=A0+1\t ".toList := by decide
  have hend : '\n' ∉ "\u3000=A0+1\t ".toList := by decide
  have hmark : (trim "\u3000=A0+1\t ".toList).head? = some formulaMark := by decide +kernel
  have hcheck : Table.readsTo "\u3000=A0+1\t ".toList (fun _ _ => true) = true := by decide +kernel
  obtain ⟨t, store, hread, _⟩ := Table.exists_of_readsTo hcheck
  obtain ⟨blanks, _, hw, hiff, hlists, _⟩ := parseFormula_of_cell hbar hend hmark
  have hfront : indent "\u3000=A0+1\t ".toList ++ trim "\u3000=A0+1\t ".toList =
      "\u3000=A0+1".toList := by decide +kernel
  have hblanks : blanks = ['\t', ' '] := by
    have hsplit : "\u3000=A0+1\t ".toList = "\u3000=A0+1".toList ++ ['\t', ' '] := by decide
    rw [hfront] at hw
    exact (List.append_cancel_left (hsplit.symm.trans hw)).symm
  obtain ⟨text, htext⟩ := hiff.2 ⟨⟨t, congrArg Prod.fst hread⟩, .inl (by simp [hblanks, spaces])⟩
  obtain ⟨t, store, f, hread, _, _, hcell, hlisted⟩ := hlists text htext
  exact ⟨hbar, hend, hmark, text, t, store, f, htext, hread, hcell, hlisted⟩

/-- The blank behind a formula is trimmed by the table, and no space of formulas. -/
theorem parseFormula_differs_from_cell :
    '|' ∉ "=1\u00a0".toList ∧ '\n' ∉ "=1\u00a0".toList ∧
      (trim "=1\u00a0".toList).head? = some formulaMark ∧
      (∃ t, (Table.read "=1\u00a0".toList .empty).1 = .ok t) ∧
      ¬ ∃ text, parseFormula "=1\u00a0".toList = .ok text := by
  have hcheck : Table.readsTo "=1\u00a0".toList (fun _ _ => true) = true := by decide +kernel
  obtain ⟨t, store, hread, _⟩ := Table.exists_of_readsTo hcheck
  refine ⟨by decide, by decide, by decide +kernel, ⟨t, congrArg Prod.fst hread⟩, ?_⟩
  rintro ⟨text, htext⟩
  have hfails : (parseFormula "=1\u00a0".toList).isOk = false := by decide +kernel
  rw [htext] at hfails
  cases hfails

end Command

end PipeSheet
