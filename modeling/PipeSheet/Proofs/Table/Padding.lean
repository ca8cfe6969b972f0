import PipeSheet.Proofs.Sheet.Rendering
import PipeSheet.Proofs.Table.Relabel
/-!
# PipeSheet.Proofs.Table.Padding

**Of its source a table keeps the trimmed pieces, and where they stand.**

A piece is trimmed before anything else is asked about it: whether it is a formula, whether it is a
number, and where the errors of the formula are. Only the span of a text counts the blanks in front
of it. So two sources with the same trimmed pieces have tables that differ in spans only, or fail in
the same cell with the same error, and they leave the same nodes in the store.

* `trimmedRows`: the pieces of a source without the blanks at their ends;
* `unplaced`: the relabelling that forgets the source and all places in it;
* `Table.read_congr`: the law.
-/

namespace PipeSheet

open Formula (Store)
open Text (Piece)

/-- The pieces of each line, without the blanks at their ends. -/
def trimmedRows (source : List Char) : List (List (List Char)) :=
  (Text.lines source).map fun line => (Text.pieces cellSeparator line).map Text.trim

/-- Forgets the source and all places in it. -/
def unplaced : Relabelling where
  place _ := .ofRange 0 0
  source _ := []

/-- The content of a piece. -/
def trimmed (piece : Piece) : List Char :=
  Text.trim piece.text

/-- A place with the content of what is written there. -/
def trimmedSlot (slot : Position × Option Piece) : Position × Option (List Char) :=
  (slot.1, slot.2.map trimmed)

theorem trimmedRows_eq (source : List Char) :
    trimmedRows source = (pieceRows source).map (List.map trimmed) := by
  have hrows := congrArg (List.map (List.map Text.trim)) (map_text_pieceRows source)
  simp only [List.map_map, Function.comp_def] at hrows
  exact hrows.symm

/-! ### Places -/

theorem map_trimmedSlot_slotRow (cols r : Nat) (row : List Piece) :
    (slotRow cols r row).map trimmedSlot =
      (fillUp cols (row.map trimmed)).zipIdx.map fun (content, c) => (⟨r, c⟩, content) := by
  have hfill : fillUp cols (row.map trimmed) = (fillUp cols row).map (Option.map trimmed) := by
    simp [fillUp]
  rw [hfill, List.zipIdx_map, slotRow, List.map_map, List.map_map]
  rfl

theorem slotRows_congr {rows rows' : List (List Piece)}
    (h : rows.map (List.map trimmed) = rows'.map (List.map trimmed)) (cols first : Nat) :
    (slotRows cols first rows).map trimmedSlot = (slotRows cols first rows').map trimmedSlot := by
  induction rows generalizing rows' first with
  | nil =>
      obtain rfl := List.map_eq_nil_iff.1 h.symm
      rfl
  | cons row rest ih =>
      cases rows' with
      | nil => cases h
      | cons row' rest' =>
          obtain ⟨hrow, hrest⟩ := List.cons.inj h
          rw [slotRows, slotRows, List.map_append, List.map_append, ih hrest,
            map_trimmedSlot_slotRow, map_trimmedSlot_slotRow, hrow]

section Sources

variable {source source' : List Char}

theorem length_pieceRows_congr (h : trimmedRows source = trimmedRows source') :
    (pieceRows source).length = (pieceRows source').length := by
  rw [trimmedRows_eq, trimmedRows_eq] at h
  simpa using congrArg List.length h

theorem width_pieceRows_congr (h : trimmedRows source = trimmedRows source') :
    width (pieceRows source) = width (pieceRows source') := by
  rw [trimmedRows_eq, trimmedRows_eq] at h
  refine width_congr ?_
  simpa [Function.comp_def] using congrArg (List.map List.length) h

theorem slots_congr (h : trimmedRows source = trimmedRows source') :
    (slots source).map trimmedSlot = (slots source').map trimmedSlot := by
  rw [slots_eq, slots_eq, width_pieceRows_congr h]
  rw [trimmedRows_eq, trimmedRows_eq] at h
  exact slotRows_congr h _ _

end Sources

/-! ### Cells -/

theorem readCell_congr {piece piece' : Piece} (h : trimmed piece = trimmed piece') (store : Store) :
    ((Cell.read piece store).1.map (Cell.relabel unplaced), (Cell.read piece store).2) =
      ((Cell.read piece' store).1.map (Cell.relabel unplaced), (Cell.read piece' store).2) := by
  unfold trimmed at h
  unfold Cell.read
  dsimp only
  rw [h]
  split
  · rfl
  · split
    · rfl
    · rfl

/-- Places with the same contents become the same cells, up to the places of texts. -/
theorem readCells_congr {before before' : Array Cell}
    {slots slots' : List (Position × Option Piece)}
    (hbefore : before.map (Cell.relabel unplaced) = before'.map (Cell.relabel unplaced))
    (hslots : slots.map trimmedSlot = slots'.map trimmedSlot) (store : Store) :
    ((readCells before slots store).1.map (Array.map (Cell.relabel unplaced)),
        (readCells before slots store).2) =
      ((readCells before' slots' store).1.map (Array.map (Cell.relabel unplaced)),
        (readCells before' slots' store).2) := by
  induction slots generalizing before before' slots' store with
  | nil =>
      obtain rfl := List.map_eq_nil_iff.1 hslots.symm
      exact congrArg (fun cells => (Except.ok cells, store)) hbefore
  | cons slot rest ih =>
      cases slots' with
      | nil => cases hslots
      | cons slot' rest' =>
          obtain ⟨p, piece?⟩ := slot
          obtain ⟨p', piece?'⟩ := slot'
          obtain ⟨hslot, hrest⟩ := List.cons.inj hslots
          obtain ⟨rfl, hpiece⟩ := Prod.mk.inj hslot
          have hpush : ∀ cell cell' : Cell, cell.relabel unplaced = cell'.relabel unplaced →
              (before.push cell).map (Cell.relabel unplaced) =
                (before'.push cell').map (Cell.relabel unplaced) := by
            intro cell cell' hcell
            rw [Array.map_push, Array.map_push, hbefore, hcell]
          cases piece? with
          | none =>
              obtain rfl := Option.map_eq_none_iff.1 hpiece.symm
              exact ih (hpush _ _ rfl) hrest store
          | some piece =>
              obtain ⟨piece', rfl, htrimmed⟩ := Option.map_eq_some_iff.1 hpiece.symm
              have hcell := readCell_congr htrimmed.symm store
              rw [readCells, readCells]
              generalize Cell.read piece store = found at hcell ⊢
              generalize Cell.read piece' store = found' at hcell ⊢
              obtain ⟨result, store₁⟩ := found
              obtain ⟨result', store₁'⟩ := found'
              obtain ⟨hresult, rfl⟩ := Prod.mk.inj hcell
              cases result with
              | error cause =>
                  cases result' with
                  | error cause' =>
                      cases hresult
                      rfl
                  | ok cell' => cases hresult
              | ok cell =>
                  cases result' with
                  | error cause' => cases hresult
                  | ok cell' => exact ih (hpush _ _ (Except.ok.inj hresult)) hrest store₁

/-! ### Tables -/

/-- Sources with the same trimmed pieces are read to the same table, up to its source and the places
of texts, or with the same error. -/
theorem Table.read_congr {source source' : List Char} (h : trimmedRows source = trimmedRows source')
    (store : Store) :
    ((Table.read source store).1.map (Table.relabel unplaced), (Table.read source store).2) =
      ((Table.read source' store).1.map (Table.relabel unplaced),
        (Table.read source' store).2) := by
  have hcells := @readCells_congr #[] #[] _ _ rfl (slots_congr h) store
  have hrows := length_pieceRows_congr h
  have hcols := width_pieceRows_congr h
  unfold Table.read
  split
  · next e s₁ hread =>
    split
    · next e' s₁' hread' =>
      rw [hread, hread'] at hcells
      cases hcells
      rfl
    · next hread' =>
      rw [hread, hread'] at hcells
      cases hcells
  · next cells s₁ hread =>
    split
    · next hread' =>
      rw [hread, hread'] at hcells
      cases hcells
    · next cells' s₁' hread' =>
      rw [hread, hread'] at hcells
      obtain ⟨hmap, rfl⟩ := Prod.mk.inj hcells
      refine congrArg (fun t => (Except.ok t, s₁)) ?_
      unfold Table.relabel
      congr 1
      exact Except.ok.inj hmap

end PipeSheet
