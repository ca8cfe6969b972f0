import PipeSheet.Proofs.Command.Dump
import PipeSheet.Proofs.Table.Shape
import PipeSheet.Proofs.Text.Separators
/-!
# PipeSheet.Proofs.Command.FileText

**Bytes that are no text do not move a cell.**

A file is read as a text before it is split into lines and pieces. The separators are bytes below
128, so the places of the table are those that the bytes alone have, and every piece is the text of
its own bytes: what is broken in one of them changes no other.

* `rawPiece?`: the bytes in a place;
* `text_pieceAt?_decode`: the piece in a place is the text of the bytes there;
* `Command.readText_places`: the law.
-/

namespace PipeSheet

open Text (Piece)
open Text.Utf8 (Decodes decode decodes_decode decodes_iff encode rawLines)

variable {bytes : List UInt8} {p : Position}

/-- The bytes in a place. -/
def rawPiece? (bytes : List UInt8) (p : Position) : Option (List UInt8) :=
  (rawLines bytes)[p.row]?.bind fun line => (line.splitOn 0x7C)[p.col]?

theorem splitOn_bar_decode (line : List UInt8) :
    (decode line).splitOn '|' = (line.splitOn 0x7C).map decode :=
  Text.Utf8.splitOn_decode (b := 0x7C) (by decide) line

theorem text_pieceAt?_decode (bytes : List UInt8) (p : Position) :
    (pieceAt? (decode bytes) p).map Piece.text = (rawPiece? bytes p).map decode := by
  have hlines := congrArg (·[p.row]?) (Text.Utf8.lines_decode bytes)
  rw [List.getElem?_map] at hlines
  cases hline : (rawLines bytes)[p.row]? with
  | none =>
      have hrow : (pieceRows (decode bytes))[p.row]? = none := by
        rw [List.getElem?_eq_none_iff, pieceRows, List.length_map, Text.length_locate,
          Text.Utf8.lines_decode, List.length_map]
        exact List.getElem?_eq_none_iff.1 hline
      rw [pieceAt?, hrow, rawPiece?, hline]
      rfl
  | some line =>
      rw [hline] at hlines
      rw [pieceAt?_eq hlines, rawPiece?, hline, Option.map_map, Option.bind_some,
        splitOn_bar_decode, List.getElem?_map, Option.map_map]
      rfl

namespace Command

variable {d : Directory} {path : String}

/-- Reading a file gives the text of its bytes, with a replacement character for each stretch that
is broken, and the text itself if the bytes are that of a text. Its pieces are the texts of the
pieces of the bytes. So a table has a row for every line of the bytes and as many columns as the
line of bytes with the most pieces, and in every place what the bytes there say. -/
theorem readText_places (hfile : d.read path = .ok bytes) :
    ∃ source, runIn d (readText Directory.access path) = (.ok source, d) ∧
      (∀ text, Decodes bytes text ↔ text = source) ∧ (∀ s, bytes = encode s → source = s) ∧
      List.Forall₂ (List.Forall₂ Decodes) ((bytes.splitOn 0x0A).map fun line => line.splitOn 0x7C)
        ((source.splitOn '\n').map fun line => line.splitOn '|') ∧
      (∀ before t store, Table.read source before = (.ok t, store) →
        t.rows = (rawLines bytes).length ∧
        t.cols = ((rawLines bytes).map fun line => (line.splitOn 0x7C).length).max?.getD 0) ∧
      ∀ p, (pieceAt? source p = none ↔ rawPiece? bytes p = none) ∧
        ∀ raw, rawPiece? bytes p = some raw → ∃ piece, pieceAt? source p = some piece ∧
          Decodes raw piece.text ∧ ∀ s, raw = encode s → piece.text = s := by
  have hencode : ∀ {raw s}, raw = encode s → decode raw = s := by
    rintro _ s rfl
    exact Text.Utf8.decode_encode s
  refine ⟨decode bytes, ?_, fun text => decodes_iff, fun s => hencode, ?_, ?_, fun p => ?_⟩
  · exact runIn_readText_of_read hfile
  · have hlines : (decode bytes).splitOn '\n' = (bytes.splitOn 0x0A).map decode :=
      Text.Utf8.splitOn_decode (b := 0x0A) (by decide) bytes
    rw [hlines, List.map_map, List.forall₂_map_left_iff, List.forall₂_map_right_iff,
      List.forall₂_same]
    intro line _
    rw [Function.comp_apply, splitOn_bar_decode, List.forall₂_map_right_iff, List.forall₂_same]
    exact fun raw _ => decodes_decode raw
  · intro before t store hread
    obtain ⟨hrows, hcols⟩ := Table.shape_of_read hread
    refine ⟨?_, ?_⟩
    · rw [hrows, pieceRows, List.length_map, Text.length_locate, Text.Utf8.lines_decode,
        List.length_map]
    · rw [hcols, width_pieceRows, Text.Utf8.lines_decode, List.map_map]
      congr 3
      funext line
      rw [Function.comp_apply, splitOn_bar_decode, List.length_map]
  · have hplace := text_pieceAt?_decode bytes p
    refine ⟨?_, fun raw hraw => ?_⟩
    · rw [← Option.map_eq_none_iff (f := Piece.text), hplace, Option.map_eq_none_iff]
    · rw [hraw, Option.map_some, Option.map_eq_some_iff] at hplace
      obtain ⟨piece, hpiece, htext⟩ := hplace
      exact ⟨piece, hpiece, htext ▸ decodes_decode raw, fun s hs => htext.trans (hencode hs)⟩

/-- Characters that are not finished, in front of a separator and of a line end. -/
theorem readText_places_of_unfinished :
    let d : Directory := ⟨[(["t"], .file [0xC3, 0x7C, 0x61, 0x0A, 0xE2, 0x82, 0x0A, 0x62])]⟩
    d.read "t" = .ok [0xC3, 0x7C, 0x61, 0x0A, 0xE2, 0x82, 0x0A, 0x62] ∧
      runIn d (readText Directory.access "t") = (.ok "\uFFFD|a\n\uFFFD\nb".toList, d) ∧
      (∃ piece, pieceAt? "\uFFFD|a\n\uFFFD\nb".toList ⟨0, 1⟩ = some piece ∧ piece.text = ['a']) ∧
      ∃ t store, Table.read "\uFFFD|a\n\uFFFD\nb".toList .empty = (.ok t, store) ∧
        t.rows = 3 ∧ t.cols = 2 := by
  intro d
  have hfile : d.read "t" = .ok [0xC3, 0x7C, 0x61, 0x0A, 0xE2, 0x82, 0x0A, 0x62] := by
    decide +kernel
  obtain ⟨source, hrun, _, _, _, htable, hplaces⟩ := readText_places hfile
  have hsource : source = "\uFFFD|a\n\uFFFD\nb".toList := by
    rw [runIn_readText_of_read hfile] at hrun
    cases hrun
    decide +kernel
  subst hsource
  refine ⟨hfile, hrun, ?_, ?_⟩
  · obtain ⟨piece, hpiece, _, htext⟩ := (hplaces ⟨0, 1⟩).2 [0x61] (by decide +kernel)
    exact ⟨piece, hpiece, htext ['a'] (by decide +kernel)⟩
  · have hcheck : Table.readsTo "\uFFFD|a\n\uFFFD\nb".toList (fun _ _ => true) = true := by
      decide +kernel
    obtain ⟨t, store, hread, _⟩ := Table.exists_of_readsTo hcheck
    obtain ⟨hrows, hcols⟩ := htable .empty t store hread
    exact ⟨t, store, hread, hrows.trans (by decide +kernel), hcols.trans (by decide +kernel)⟩

end Command

end PipeSheet
