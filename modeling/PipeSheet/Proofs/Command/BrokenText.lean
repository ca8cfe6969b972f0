import PipeSheet.Proofs.Command.FileText
import PipeSheet.Proofs.Formula.Cutoff
import PipeSheet.Proofs.Number.Characters
import PipeSheet.Proofs.Table.Formulas
/-!
# PipeSheet.Proofs.Command.BrokenText

**Bytes that are no text make a text cell, unless they stand in a formula.**

A broken piece has a replacement character, which is no blank and in no number. So the piece is a
text, if it is not marked as a formula. In a formula the character belongs nowhere: the reader stops
at it, unless a word in front of it ended the sum. Then the formula says what the text in front of
the character says, and nothing tells that bytes were lost.

* `emptied`: a file without the pieces that are no text;
* `BreaksFormula`, `TableError.OfBroken`: a broken piece that is marked as a formula, and its error;
* `Table.exists_read_iff_emptied`, `Table.broken_of_read_error`: when a file reads as a table, and
  its error if it does not;
* `Command.readText_broken`: the law.
-/

namespace PipeSheet

open Formula (EndsByWord FormulaError Ordinary Store)
open Text (Piece byteLength trim)
open Text.Utf8 (IsText decode rawLines replacement replacement_mem_decode)

variable {bytes raw : List UInt8} {p : Position} {text front : List Char}

/-! ### Files without their broken pieces -/

/-- The pieces of a file, line by line, with the empty one behind the last line end. -/
def rawRows (bytes : List UInt8) : List (List (List UInt8)) :=
  (bytes.splitOn 0x0A).map fun line => line.splitOn 0x7C

/-- A piece that is a text, and otherwise nothing. -/
def textOrEmpty (raw : List UInt8) : List UInt8 :=
  if IsText raw then raw else []

/-- The bytes of a file with the pieces emptied that are no text. -/
def emptied (bytes : List UInt8) : List UInt8 :=
  [0x0A].intercalate ((rawRows bytes).map fun row => [0x7C].intercalate (row.map textOrEmpty))

theorem mem_of_mem_textOrEmpty {b : UInt8} (h : b ∈ textOrEmpty raw) : b ∈ raw := by
  unfold textOrEmpty at h
  split at h
  · exact h
  · cases h

theorem textOrEmpty_eq_iff {old : List UInt8} (hne : raw ≠ []) :
    textOrEmpty old = raw ↔ old = raw ∧ IsText raw := by
  unfold textOrEmpty
  split
  · next htext =>
    constructor
    · rintro rfl
      exact ⟨rfl, htext⟩
    · exact And.left
  · next hbroken =>
    constructor
    · intro hnil
      exact absurd hnil.symm hne
    · rintro ⟨rfl, htext⟩
      exact absurd htext hbroken

/-- The pieces keep their places when some of them are emptied. -/
theorem rawRows_emptied (bytes : List UInt8) :
    rawRows (emptied bytes) = (rawRows bytes).map fun row => row.map textOrEmpty := by
  have hline : ∀ row ∈ rawRows bytes,
      ([0x7C].intercalate (row.map textOrEmpty)).splitOn 0x7C = row.map textOrEmpty := by
    intro row hrow
    obtain ⟨line, _, rfl⟩ := List.mem_map.1 hrow
    refine List.splitOn_intercalate _ (fun part hpart hbar => ?_) (by simp [List.splitOn_ne_nil])
    obtain ⟨old, hold, rfl⟩ := List.mem_map.1 hpart
    exact (Text.mem_splitOn hold).1 (mem_of_mem_textOrEmpty hbar)
  have hlines : (emptied bytes).splitOn 0x0A =
      (rawRows bytes).map fun row => [0x7C].intercalate (row.map textOrEmpty) := by
    refine List.splitOn_intercalate _ (fun line hline hend => ?_)
      (by simp [rawRows, List.splitOn_ne_nil])
    obtain ⟨row, hrow, rfl⟩ := List.mem_map.1 hline
    obtain ⟨old, hold, rfl⟩ := List.mem_map.1 hrow
    -- A line end in the line is one of a piece, for it is no separator of pieces.
    rcases Text.mem_intercalate hend with hbar | ⟨part, hpart, hend⟩
    · cases hbar
    · obtain ⟨piece, hpiece, rfl⟩ := List.mem_map.1 hpart
      exact (Text.mem_splitOn hold).1 ((Text.mem_splitOn hpiece).2 _ (mem_of_mem_textOrEmpty hend))
  rw [rawRows, hlines, List.map_map]
  exact List.map_congr_left hline

/-- No piece but an empty one stands behind the last line end. -/
theorem rawPiece?_eq_some_iff (hne : raw ≠ []) : rawPiece? bytes p = some raw ↔
    ∃ row, (rawRows bytes)[p.row]? = some row ∧ row[p.col]? = some raw := by
  have hrows : (∃ row, (rawRows bytes)[p.row]? = some row ∧ row[p.col]? = some raw) ↔
      ∃ line, (bytes.splitOn 0x0A)[p.row]? = some line ∧
        (line.splitOn 0x7C)[p.col]? = some raw := by
    simp [rawRows]
  rw [hrows, rawPiece?, Option.bind_eq_some_iff, rawLines]
  split
  · next hlast =>
    obtain ⟨front, hfront⟩ := List.getLast?_eq_some_iff.1 hlast
    rw [hfront, List.dropLast_concat]
    constructor
    · intro h
      obtain ⟨line, hline, hpiece⟩ := h
      refine ⟨line, ?_, hpiece⟩
      rw [List.getElem?_append_left (List.getElem?_eq_some_iff.1 hline).1, hline]
    · intro h
      obtain ⟨line, hline, hpiece⟩ := h
      refine ⟨line, ?_, hpiece⟩
      rcases Nat.lt_or_ge p.row front.length with hlt | hge
      · rwa [List.getElem?_append_left hlt] at hline
      · rw [List.getElem?_append_right hge] at hline
        have hempty := List.mem_singleton.1 (List.mem_of_getElem? hline)
        subst hempty
        have hnil := List.mem_singleton.1 (List.mem_of_getElem? hpiece)
        exact absurd hnil hne
  · rfl

/-- The pieces that are left are those that are texts. -/
theorem rawPiece?_emptied (hne : raw ≠ []) :
    rawPiece? (emptied bytes) p = some raw ↔ rawPiece? bytes p = some raw ∧ IsText raw := by
  rw [rawPiece?_eq_some_iff hne, rawPiece?_eq_some_iff hne, rawRows_emptied]
  simp only [List.getElem?_map, Option.map_eq_some_iff]
  constructor
  · rintro ⟨_, ⟨row, hrow, rfl⟩, hpiece⟩
    rw [List.getElem?_map, Option.map_eq_some_iff] at hpiece
    obtain ⟨old, hold, hkept⟩ := hpiece
    obtain ⟨rfl, htext⟩ := (textOrEmpty_eq_iff hne).1 hkept
    exact ⟨⟨row, hrow, hold⟩, htext⟩
  · intro ⟨⟨row, hrow, hold⟩, htext⟩
    refine ⟨_, ⟨row, hrow, rfl⟩, ?_⟩
    rw [List.getElem?_map, hold, Option.map_some, (textOrEmpty_eq_iff hne).2 ⟨rfl, htext⟩]

/-! ### Formulas of a file -/

theorem exists_pieceAt?_decode (h : rawPiece? bytes p = some raw) :
    ∃ piece, pieceAt? (decode bytes) p = some piece ∧ piece.text = decode raw := by
  have hplace := text_pieceAt?_decode bytes p
  rwa [h, Option.map_some, Option.map_eq_some_iff] at hplace

theorem mem_formulaTexts_decode : (p, text) ∈ formulaTexts (slots (decode bytes)) ↔
    ∃ raw, rawPiece? bytes p = some raw ∧ trim (decode raw) = formulaMark :: text := by
  have hplace := text_pieceAt?_decode bytes p
  simp only [mem_formulaTexts, formulaText?_eq_some_iff]
  constructor
  · intro ⟨piece, hpiece, htext⟩
    rw [hpiece, Option.map_some, eq_comm, Option.map_eq_some_iff] at hplace
    obtain ⟨raw, hraw, hdecode⟩ := hplace
    exact ⟨raw, hraw, hdecode ▸ htext⟩
  · intro ⟨raw, hraw, htext⟩
    obtain ⟨piece, hpiece, hdecode⟩ := exists_pieceAt?_decode hraw
    exact ⟨piece, hpiece, hdecode ▸ htext⟩

/-- The bytes of a file read as a table exactly if all pieces that are marked as formulas read. -/
theorem Table.exists_read_decode_iff (bytes : List UInt8) (before : Store) :
    (∃ t, (Table.read (decode bytes) before).1 = .ok t) ↔
      ∀ p raw text, rawPiece? bytes p = some raw → trim (decode raw) = formulaMark :: text →
        ∃ root, (Formula.read text .empty).1 = .ok root := by
  rw [Table.exists_read_eq_ok_iff]
  constructor
  · intro h p raw text hraw htext
    exact h (p, text) (mem_formulaTexts_decode.2 ⟨raw, hraw, htext⟩)
  · intro h ⟨p, text⟩ hmem
    obtain ⟨raw, hraw, htext⟩ := mem_formulaTexts_decode.1 hmem
    exact h p raw text hraw htext

/-- Emptied of the pieces that are no text, they do so exactly if the other ones read. -/
theorem Table.exists_read_emptied_iff (bytes : List UInt8) (before : Store) :
    (∃ t, (Table.read (decode (emptied bytes)) before).1 = .ok t) ↔
      ∀ p raw text, rawPiece? bytes p = some raw → IsText raw →
        trim (decode raw) = formulaMark :: text →
        ∃ root, (Formula.read text .empty).1 = .ok root := by
  have hne : ∀ {raw text}, trim (decode raw) = formulaMark :: text → raw ≠ [] := by
    rintro _ text htext rfl
    cases htext
  rw [Table.exists_read_decode_iff]
  constructor
  · intro h p raw text hraw hkept htext
    exact h p raw text ((rawPiece?_emptied (hne htext)).2 ⟨hraw, hkept⟩) htext
  · intro h p raw text hraw htext
    obtain ⟨hraw, hkept⟩ := (rawPiece?_emptied (hne htext)).1 hraw
    exact h p raw text hraw hkept htext

/-! ### Broken pieces -/

theorem replacement_not_ordinary : ¬ Ordinary replacement := by
  intro h
  obtain hspace | hplus | hword := h
  · exact absurd hspace (by decide)
  · exact absurd hplus (by decide)
  · exact absurd hword (by decide)

theorem replacement_mem_trim (h : ¬ IsText raw) : replacement ∈ trim (decode raw) :=
  Text.mem_trim_of_not_isBlank (replacement_mem_decode h) (by decide)

/-- A piece that is no text is marked as a formula, and `front` is what stands in the formula before
the first replacement character. -/
def BreaksFormula (raw : List UInt8) (front : List Char) : Prop :=
  ¬ IsText raw ∧ replacement ∉ front ∧
    ∃ back, trim (decode raw) = formulaMark :: (front ++ replacement :: back)

theorem exists_breaksFormula (h : ¬ IsText raw) (htext : trim (decode raw) = formulaMark :: text) :
    ∃ front back, text = front ++ replacement :: back ∧ BreaksFormula raw front := by
  have hmem := replacement_mem_trim h
  rw [htext, List.mem_cons] at hmem
  obtain ⟨front, back, rfl, hfront⟩ :=
    List.eq_append_cons_of_mem (hmem.resolve_left (by decide))
  exact ⟨front, back, rfl, h, hfront, back, htext⟩

theorem BreaksFormula.exists_text (h : BreaksFormula raw front) :
    ∃ text, trim (decode raw) = formulaMark :: text := by
  obtain ⟨_, _, back, hback⟩ := h
  exact ⟨_, hback⟩

/-- A formula that is broken reads exactly if a word ends it before it is. -/
theorem BreaksFormula.exists_read_iff (h : BreaksFormula raw front)
    (htext : trim (decode raw) = formulaMark :: text) (store : Store) :
    (∃ root, (Formula.read text store).1 = .ok root) ↔ EndsByWord front := by
  obtain ⟨_, _, back, hback⟩ := h
  obtain rfl := (List.cons.inj (htext.symm.trans hback)).2
  exact Formula.read_append_foreign_iff replacement_not_ordinary front back store

/-- Then its cell is the formula of the text in front. -/
theorem BreaksFormula.readCell {piece : Piece} {cell : Cell} {store after : Store}
    (h : BreaksFormula raw front) (htext : piece.text = decode raw)
    (hread : Cell.read piece store = (.ok cell, after)) :
    ∃ f, cell = .formula f ∧ Formula.read front store = (.ok f.root, after) := by
  obtain ⟨_, _, back, hback⟩ := h
  rcases readCell_cases hread with ⟨root, rfl, _, hformula⟩ | ⟨_, hmark, _⟩
  · rw [htext, hback, List.tail_cons] at hformula
    have hword := (Formula.read_append_foreign_iff replacement_not_ordinary front back store).1
      ⟨root, congrArg Prod.fst hformula⟩
    rw [Formula.read_append_foreign replacement_not_ordinary hword] at hformula
    exact ⟨_, rfl, hformula⟩
  · rw [htext, hback] at hmark
    exact absurd rfl hmark

/-- A broken piece that is not marked as a formula is a text. -/
theorem readCell_of_broken {piece : Piece} {cell : Cell} {store after : Store}
    (htext : piece.text = decode raw) (h : ¬ IsText raw)
    (hmark : (trim (decode raw)).head? ≠ some formulaMark)
    (hread : Cell.read piece store = (.ok cell, after)) :
    ∃ span, cell = .text span (trim (decode raw)) := by
  have hnumber : Number.read? (trim (decode raw)) = none := by
    refine Option.eq_none_iff_forall_ne_some.2 fun x hx => ?_
    exact Number.replacement_not_admitted (Number.admitted_of_read? hx _ (replacement_mem_trim h))
  rw [Cell.read, htext] at hread
  dsimp only at hread
  rw [if_neg hmark, hnumber] at hread
  cases hread
  exact ⟨_, rfl⟩

/-- The error is that of a broken formula which does not end before its first replacement character:
what is wrong in front of the character, and otherwise the character. Every broken formula in an
earlier place ends before its own. -/
def TableError.OfBroken (bytes : List UInt8) (e : TableError) : Prop :=
  ∃ raw front, rawPiece? bytes e.cell = some raw ∧ BreaksFormula raw front ∧ ¬ EndsByWord front ∧
    e.cause = .cutBy
      ⟨replacement, .ofRange (byteLength front) (byteLength (front ++ [replacement]))⟩
      (Formula.read front .empty).1 ∧
    ∀ q raw' front', q < e.cell → rawPiece? bytes q = some raw' → BreaksFormula raw' front' →
      EndsByWord front'

/-- With its broken pieces, a file reads as a table exactly if it does so without them and each of
them that is a formula ends in front of its first replacement character. -/
theorem Table.exists_read_iff_emptied (bytes : List UInt8) (before : Store) :
    (∃ t, (Table.read (decode bytes) before).1 = .ok t) ↔
      (∃ t, (Table.read (decode (emptied bytes)) before).1 = .ok t) ∧
        ∀ p raw front, rawPiece? bytes p = some raw → BreaksFormula raw front →
          EndsByWord front := by
  rw [Table.exists_read_decode_iff, Table.exists_read_emptied_iff]
  constructor
  · intro h
    refine ⟨fun p raw text hraw _ htext => h p raw text hraw htext,
      fun p raw front hraw hbreaks => ?_⟩
    obtain ⟨text, htext⟩ := hbreaks.exists_text
    exact (hbreaks.exists_read_iff htext .empty).1 (h p raw text hraw htext)
  · intro ⟨hrest, hbroken⟩ p raw text hraw htext
    by_cases hkept : IsText raw
    · exact hrest p raw text hraw hkept htext
    · obtain ⟨front, back, rfl, hbreaks⟩ := exists_breaksFormula hkept htext
      exact (hbreaks.exists_read_iff htext .empty).2 (hbroken p raw front hraw hbreaks)

/-- If only the broken pieces keep a file from reading as a table, then one of them is the error. -/
theorem Table.broken_of_read_error {before after : Store} {e : TableError}
    (h : Table.read (decode bytes) before = (.error e, after))
    (hrest : ∃ t, (Table.read (decode (emptied bytes)) before).1 = .ok t) : e.OfBroken bytes := by
  obtain ⟨earlier, text, later, hformulas, hearlier, hfails⟩ := Table.exists_of_read_error h
  have hmem : (e.cell, text) ∈ formulaTexts (slots (decode bytes)) := by simp [hformulas]
  obtain ⟨raw, hraw, htext⟩ := mem_formulaTexts_decode.1 hmem
  have hall := (Table.exists_read_emptied_iff bytes before).1 hrest
  have hno : ¬ IsText raw := by
    intro hkept
    obtain ⟨root, hroot⟩ := hall e.cell raw text hraw hkept htext
    cases hfails.symm.trans hroot
  obtain ⟨front, back, rfl, hbreaks⟩ := exists_breaksFormula hno htext
  have hword : ¬ EndsByWord front := by
    intro hword
    obtain ⟨root, hroot⟩ := (hbreaks.exists_read_iff htext .empty).2 hword
    cases hfails.symm.trans hroot
  have hcause := Formula.read_append_foreign_error replacement_not_ordinary hword back .empty
  refine ⟨raw, front, hraw, hbreaks, hword, Except.error.inj (hfails.symm.trans hcause),
    fun q raw' front' hlt hraw' hbreaks' => ?_⟩
  -- A formula in an earlier place is one of those in front of the first that fails.
  obtain ⟨text', htext'⟩ := hbreaks'.exists_text
  have hmem' := mem_formulaTexts_decode.2 ⟨raw', hraw', htext'⟩
  have hread' := hearlier _ (mem_earlier_of_lt hformulas hmem' hlt)
  exact (hbreaks'.exists_read_iff htext' .empty).1 hread'

namespace Command

variable {d : Directory} {path : String}

/-- Reading a file never fails for what its bytes are. The bytes read as a table exactly if they do
so with the broken pieces emptied, and in each of these that is marked as a formula a word in front
of the first replacement character ends the sum. In a table that reads, a broken piece is a text, or
a formula that says what the text in front of the character says. If the broken pieces are all that
keeps the bytes from reading, then the first of them that is a formula and has no such word is the
error. -/
theorem readText_broken (hfile : d.read path = .ok bytes) :
    runIn d (readText Directory.access path) = (.ok (decode bytes), d) ∧
    (∀ before, (∃ t, (Table.read (decode bytes) before).1 = .ok t) ↔
      (∃ t, (Table.read (decode (emptied bytes)) before).1 = .ok t) ∧
        ∀ p raw front, rawPiece? bytes p = some raw → BreaksFormula raw front → EndsByWord front) ∧
    (∀ before t store, Table.read (decode bytes) before = (.ok t, store) →
      ∀ p raw, rawPiece? bytes p = some raw → ¬ IsText raw →
        ((trim (decode raw)).head? ≠ some formulaMark →
          ∃ span, t.get? p = some (.text span (trim (decode raw)))) ∧
        ∀ front, BreaksFormula raw front → ∃ f first last, t.get? p = some (.formula f) ∧
          Formula.read front first = (.ok f.root, last) ∧ last.Extends store) ∧
    ∀ before e store, Table.read (decode bytes) before = (.error e, store) →
      (∃ t, (Table.read (decode (emptied bytes)) before).1 = .ok t) → e.OfBroken bytes := by
  refine ⟨runIn_readText_of_read hfile, Table.exists_read_iff_emptied bytes,
    fun before t store hread p raw hraw hno => ?_,
    fun before e store hread hrest => Table.broken_of_read_error hread hrest⟩
  obtain ⟨piece, hpiece, htext⟩ := exists_pieceAt?_decode hraw
  obtain ⟨cell, first, last, hp, hcell, hext⟩ := Table.exists_read_of_pieceAt? hread hpiece
  refine ⟨fun hmark => ?_, fun front hbreaks => ?_⟩
  · obtain ⟨span, rfl⟩ := readCell_of_broken htext hno hmark hcell
    exact ⟨span, hp⟩
  · obtain ⟨f, rfl, hformula⟩ := hbreaks.readCell htext hcell
    exact ⟨f, first, last, hp, hformula, hext⟩

/-- A text, and a formula that a word ends in front of the broken byte. -/
theorem readText_broken_of_word :
    let bytes : List UInt8 := [0x63, 0xE9, 0x7C, 0x3D, 0x31, 0x20, 0x78, 0xFF, 0x0A]
    let d : Directory := ⟨[(["t"], .file bytes)]⟩
    d.read "t" = .ok bytes ∧ rawPiece? bytes ⟨0, 0⟩ = some [0x63, 0xE9] ∧
      rawPiece? bytes ⟨0, 1⟩ = some [0x3D, 0x31, 0x20, 0x78, 0xFF] ∧
      BreaksFormula [0x3D, 0x31, 0x20, 0x78, 0xFF] "1 x".toList ∧
      runIn d (readText Directory.access "t") = (.ok "c\uFFFD|=1 x\uFFFD\n".toList, d) ∧
      ∃ t store f first last span,
        Table.read "c\uFFFD|=1 x\uFFFD\n".toList .empty = (.ok t, store) ∧
        t.get? ⟨0, 0⟩ = some (.text span "c\uFFFD".toList) ∧
        t.get? ⟨0, 1⟩ = some (.formula f) ∧
        Formula.read "1 x".toList first = (.ok f.root, last) ∧ last.Extends store := by
  intro bytes d
  have hfile : d.read "t" = .ok bytes := by decide +kernel
  have hdecode : decode bytes = "c\uFFFD|=1 x\uFFFD\n".toList := by decide +kernel
  have htext : rawPiece? bytes ⟨0, 0⟩ = some [0x63, 0xE9] := by decide +kernel
  have hformula : rawPiece? bytes ⟨0, 1⟩ = some [0x3D, 0x31, 0x20, 0x78, 0xFF] := by decide +kernel
  have hbreaks : BreaksFormula [0x3D, 0x31, 0x20, 0x78, 0xFF] "1 x".toList :=
    ⟨by decide +kernel, by decide, [], by decide +kernel⟩
  obtain ⟨hrun, _, hcells, _⟩ := readText_broken hfile
  rw [hdecode] at hrun hcells
  have hcheck : Table.readsTo "c\uFFFD|=1 x\uFFFD\n".toList (fun _ _ => true) = true := by
    decide +kernel
  obtain ⟨t, store, hread, _⟩ := Table.exists_of_readsTo hcheck
  obtain ⟨span, hspan⟩ := (hcells .empty t store hread _ _ htext (by decide +kernel)).1
    (by decide +kernel)
  have htrim : trim (decode [0x63, 0xE9]) = "c\uFFFD".toList := by decide +kernel
  rw [htrim] at hspan
  obtain ⟨f, first, last, hcell, hformulaRead, hext⟩ :=
    (hcells .empty t store hread _ _ hformula hbreaks.1).2 _ hbreaks
  exact ⟨hfile, htext, hformula, hbreaks, hrun, t, store, f, first, last, span, hread, hspan, hcell,
    hformulaRead, hext⟩

/-- A broken piece of a formula keeps the bytes from reading: it is no text, and without it they
read. -/
theorem readText_broken_fails :
    let bytes : List UInt8 := [0x31, 0x7C, 0x3D, 0x32, 0xFF]
    let d : Directory := ⟨[(["t"], .file bytes)]⟩
    runIn d (readText Directory.access "t") = (.ok (decode bytes), d) ∧
      rawPiece? bytes ⟨0, 1⟩ = some [0x3D, 0x32, 0xFF] ∧ ¬ IsText [0x3D, 0x32, 0xFF] ∧
      emptied bytes = [0x31, 0x7C] ∧ (∃ t, (Table.read (decode (emptied bytes)) .empty).1 = .ok t) ∧
      (Table.read (decode bytes) .empty).1 =
        .error ⟨⟨0, 1⟩, .unrecognized ⟨replacement, .ofRange 1 4⟩⟩ := by
  intro bytes d
  have hfile : d.read "t" = .ok bytes := by decide +kernel
  have hemptied : emptied bytes = [0x31, 0x7C] := by decide +kernel
  have hcheck : Table.readsTo (decode (emptied bytes)) (fun _ _ => true) = true := by decide +kernel
  obtain ⟨t, store, hread, _⟩ := Table.exists_of_readsTo hcheck
  refine ⟨runIn_readText_of_read hfile, by decide +kernel, by decide +kernel, hemptied,
    ⟨t, congrArg Prod.fst hread⟩, ?_⟩
  have hmatch : (match (Table.read (decode bytes) .empty).1 with
      | .error e => decide (e = ⟨⟨0, 1⟩, .unrecognized ⟨replacement, .ofRange 1 4⟩⟩)
      | .ok _ => false) = true := by decide +kernel
  split at hmatch
  · next e he => rw [he, of_decide_eq_true hmatch]
  · cases hmatch

end Command

end PipeSheet
