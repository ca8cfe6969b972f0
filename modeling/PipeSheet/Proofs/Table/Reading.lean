import PipeSheet.Proofs.Formula.Sum
import PipeSheet.Proofs.Text.Pieces
import PipeSheet.Table.Reader
/-!
# PipeSheet.Proofs.Table.Reading

**A table that reads has, in every place, what its source has there.**

The places are read row by row, and the store grows from one to the next. Every formula has its
tree in the store after its own text was read; since stores keep their nodes, it has it in the store
at the end as well. The store at the end is not full when the source is shorter than the room for
ids: a formula adds no more nodes than it has characters.

* `pieceAt?`: what the source has in a place;
* `Written`: what becomes of it;
* `Table.ReadsAs`, `Table.readsAs_of_read`: all places of a table that reads.
-/

namespace PipeSheet

open Formula (FormulaError Reads Store)
open Text (Piece byteLength)

/-! ### Places -/

/-- The piece written in a place. -/
def pieceAt? (source : List Char) (p : Position) : Option Piece :=
  (pieceRows source)[p.row]?.bind fun row => row[p.col]?

/-- No row is longer than the width. -/
theorem width_le {α : Type} {rows : List (List α)} {n : Nat} (h : ∀ row ∈ rows, row.length ≤ n) :
    width rows ≤ n := by
  have key : ∀ m, m ≤ n → (rows.map List.length).foldl max m ≤ n := by
    induction rows with
    | nil => exact fun m hm => hm
    | cons row rest ih =>
        intro m hm
        refine ih (fun r hr => h r (List.mem_cons_of_mem _ hr)) _ (Nat.max_le.2 ⟨hm, ?_⟩)
        exact h row List.mem_cons_self
  exact key 0 (Nat.zero_le n)

/-- Every line has a piece, so rows have a width. -/
theorem width_pieceRows_pos {source : List Char} (h : 0 < (pieceRows source).length) :
    0 < width (pieceRows source) := by
  obtain ⟨row, hrow⟩ := List.exists_mem_of_length_pos h
  obtain ⟨line, _, rfl⟩ := List.mem_map.1 hrow
  refine Nat.lt_of_lt_of_le ?_ (length_le_width hrow)
  rw [Text.length_locate]
  exact List.length_pos_iff.2 (Text.pieces_ne_nil _ _)

/-- The slots of one row. -/
def slotRow (cols r : Nat) (row : List Piece) : List (Position × Option Piece) :=
  (fillUp cols row).zipIdx.map fun (piece, c) => (⟨r, c⟩, piece)

/-- The slots of some rows, of which the first one has the given number. -/
def slotRows (cols first : Nat) : List (List Piece) → List (Position × Option Piece)
  | [] => []
  | row :: rest => slotRow cols first row ++ slotRows cols (first + 1) rest

theorem slots_eq (source : List Char) :
    slots source = slotRows (width (pieceRows source)) 0 (pieceRows source) := by
  have key : ∀ (cols : Nat) (rows : List (List Piece)) (first : Nat),
      ((rows.zipIdx first).flatMap fun slot => slotRow cols slot.2 slot.1) =
        slotRows cols first rows := by
    intro cols rows
    induction rows with
    | nil => intro first; rfl
    | cons row rest ih =>
        intro first
        rw [List.zipIdx_cons, List.flatMap_cons, ih]
        rfl
  exact key _ _ 0

theorem getElem?_fillUp {α : Type} {cols j : Nat} {row : List α} (hrow : row.length ≤ cols)
    (hj : j < cols) : (fillUp cols row)[j]? = some row[j]? := by
  unfold fillUp
  rcases Nat.lt_or_ge j row.length with h | h
  · rw [List.getElem?_append_left (by simpa using h)]
    simp [h]
  · rw [List.getElem?_append_right (by simpa using h), List.getElem?_replicate,
      List.getElem?_eq_none h, if_pos]
    rw [List.length_map]
    omega

/-- Row by row, the slot of a place is the one at its index. -/
theorem getElem?_slotRows {cols first i j : Nat} {rows : List (List Piece)}
    (hi : i < rows.length) (hj : j < cols) (hle : ∀ row ∈ rows, row.length ≤ cols) :
    (slotRows cols first rows)[i * cols + j]? =
      some (⟨first + i, j⟩, rows[i]?.bind fun row => row[j]?) := by
  induction rows generalizing first i with
  | nil => cases hi
  | cons row rest ih =>
      have hrow := hle row List.mem_cons_self
      have hlength : (slotRow cols first row).length = cols := by
        rw [slotRow, List.length_map, List.length_zipIdx, length_fillUp hrow]
      rw [slotRows]
      -- The place is in the first row, or as far into the rest as it is below that row.
      cases i with
      | zero =>
          rw [List.getElem?_append_left (by rw [hlength]; omega)]
          simp [slotRow, getElem?_fillUp hrow hj]
      | succ i =>
          have hindex : (i + 1) * cols + j = cols + (i * cols + j) := by
            rw [Nat.succ_mul]
            omega
          have hrest := @ih (first + 1) i (Nat.lt_of_succ_lt_succ hi)
            fun r hr => hle r (List.mem_cons_of_mem _ hr)
          rw [hindex, List.getElem?_append_right (by omega), hlength, Nat.add_sub_cancel_left,
            hrest]
          simp [Nat.add_assoc, Nat.add_comm 1]

theorem getElem?_slots {source : List Char} {p : Position}
    (hrow : p.row < (pieceRows source).length) (hcol : p.col < width (pieceRows source)) :
    (slots source)[p.row * width (pieceRows source) + p.col]? = some (p, pieceAt? source p) := by
  rw [slots_eq, getElem?_slotRows hrow hcol fun row hrow => length_le_width hrow, Nat.zero_add]
  rfl

/-- The slot at an index is that of the position with this index, and it has the piece written
there. -/
theorem of_getElem?_slots {source : List Char} {k : Nat} {p : Position} {piece? : Option Piece}
    (h : (slots source)[k]? = some (p, piece?)) :
    p.row < (pieceRows source).length ∧ p.col < width (pieceRows source) ∧
      p.row * width (pieceRows source) + p.col = k ∧ piece? = pieceAt? source p := by
  obtain ⟨hk, _⟩ := List.getElem?_eq_some_iff.1 h
  rw [length_slots] at hk
  obtain ⟨hrow, hcol, hindex⟩ := Position.inside_of_index_lt hk
  have hslot := getElem?_slots (p := ⟨k / _, k % _⟩) hrow hcol
  simp only [hindex] at hslot
  rw [h] at hslot
  cases hslot
  exact ⟨hrow, hcol, hindex, rfl⟩

/-- A piece has a row, and a column within the width. -/
theorem lt_of_pieceAt? {source : List Char} {p : Position} {piece : Piece}
    (h : pieceAt? source p = some piece) :
    p.row < (pieceRows source).length ∧ p.col < width (pieceRows source) := by
  obtain ⟨row, hrow, hcol⟩ := Option.bind_eq_some_iff.1 h
  have hwidth := length_le_width (List.mem_of_getElem? hrow)
  exact ⟨(List.getElem?_eq_some_iff.1 hrow).1,
    Nat.lt_of_lt_of_le (List.getElem?_eq_some_iff.1 hcol).1 hwidth⟩

/-- A piece stands in the source at its offset. -/
theorem within_of_pieceAt? {source : List Char} {p : Position} {piece : Piece}
    (h : pieceAt? source p = some piece) : piece.Within 0 source := by
  obtain ⟨row, hrow, hpiece⟩ := Option.bind_eq_some_iff.1 h
  obtain ⟨line, hline, rfl⟩ := List.mem_map.1 (List.mem_of_getElem? hrow)
  have hinside := Text.within_of_mem_locate_pieces (by decide) (List.mem_of_getElem? hpiece)
  exact hinside.trans (Text.within_of_mem_locate_lines hline)

/-- The span of a trimmed piece, sliced out of the source, is the trimmed piece. -/
theorem slice?_of_within {source : List Char} {piece : Piece} (h : piece.Within 0 source)
    (hsize : byteLength source < 2 ^ 32) :
    (Span.ofRange (piece.start + byteLength (Text.indent piece.text))
      (piece.start + byteLength (Text.indent piece.text) +
        byteLength (Text.trim piece.text))).slice? source = some (Text.trim piece.text) := by
  obtain ⟨before, after, hsource, hstart⟩ := h
  obtain ⟨blanks, htrim⟩ := Text.exists_eq_trim_append piece.text
  have hbefore : piece.start + byteLength (Text.indent piece.text) =
      byteLength (before ++ Text.indent piece.text) := by
    rw [hstart, Text.byteLength_append, Nat.zero_add]
  have hall : source = before ++ Text.indent piece.text ++ Text.trim piece.text ++
      (blanks ++ after) := by
    rw [hsource]
    conv => lhs; rw [htrim]
    simp only [List.append_assoc]
  rw [hbefore]
  conv => lhs; rw [hall]
  refine Span.slice?_ofRange (Nat.lt_of_le_of_lt ?_ hsize)
  conv => rhs; rw [hall]
  rw [Text.byteLength_append _ (blanks ++ after)]
  exact Nat.le_add_right _ _

/-! ### Lengths -/

/-- The number of characters in the pieces of some slots. -/
def slotsLength (slots : List (Position × Option Piece)) : Nat :=
  (slots.map fun slot => (slot.2.map fun piece => piece.text.length).getD 0).sum

@[simp] theorem slotsLength_cons (p : Position) (piece? : Option Piece)
    (slots : List (Position × Option Piece)) :
    slotsLength ((p, piece?) :: slots) =
      (piece?.map fun piece => piece.text.length).getD 0 + slotsLength slots := by
  simp [slotsLength]

theorem slotsLength_slotRow (cols r : Nat) (row : List Piece) :
    slotsLength (slotRow cols r row) = (row.map fun piece => piece.text.length).sum := by
  have hfst : slotsLength (slotRow cols r row) =
      ((fillUp cols row).map fun piece? =>
        (piece?.map fun piece => piece.text.length).getD 0).sum := by
    rw [slotsLength, slotRow, List.map_map]
    conv => rhs; rw [← List.zipIdx_map_fst 0 (fillUp cols row), List.map_map]
    rfl
  rw [hfst, fillUp, List.map_append, List.sum_append, List.map_map]
  simp [Function.comp_def]

theorem slotsLength_slotRows (cols first : Nat) (rows : List (List Piece)) :
    slotsLength (slotRows cols first rows) =
      (rows.map fun row => (row.map fun piece => piece.text.length).sum).sum := by
  induction rows generalizing first with
  | nil => rfl
  | cons row rest ih =>
      have hrow := slotsLength_slotRow cols first row
      have hrest := ih (first + 1)
      rw [slotsLength] at hrow hrest ⊢
      rw [slotRows, List.map_append, List.sum_append, hrow, hrest]
      rfl

theorem sum_length_locate (start : Nat) (texts : List (List Char)) :
    ((Text.locate start texts).map fun piece => piece.text.length).sum =
      (texts.map List.length).sum := by
  conv => rhs; rw [← Text.map_text_locate start texts, List.map_map]
  rfl

/-- All pieces together are not longer than the source. -/
theorem slotsLength_slots_le (source : List Char) : slotsLength (slots source) ≤ source.length := by
  have hlines : ∀ lines : List Piece, (lines.map fun line =>
      ((Text.locate line.start (Text.pieces cellSeparator line.text)).map
        fun piece => piece.text.length).sum).sum ≤
          (lines.map fun line => line.text.length).sum := by
    intro lines
    induction lines with
    | nil => exact Nat.le_refl _
    | cons line rest ih =>
        have hline := Text.sum_length_pieces_le cellSeparator line.text
        simp only [List.map_cons, List.sum_cons, sum_length_locate] at ih ⊢
        omega
  rw [slots_eq, slotsLength_slotRows, pieceRows, List.map_map]
  calc _ ≤ _ := hlines (Text.locate 0 (Text.lines source))
    _ = ((Text.lines source).map List.length).sum := sum_length_locate 0 _
    _ ≤ source.length := Text.sum_length_lines_le source

/-! ### Cells -/

/-- What becomes of the piece in a place. -/
inductive Written (store : Store) : Option Piece → Cell → Prop
  | empty : Written store none .empty
  | formula {piece : Piece} {root : Formula.NodeId} :
      (Text.trim piece.text).head? = some formulaMark →
      Reads (Text.trim piece.text).tail store root →
      Written store (some piece) (.formula { root })
  | number {piece : Piece} {value : Float} :
      (Text.trim piece.text).head? ≠ some formulaMark →
      Number.read? (Text.trim piece.text) = some value →
      Written store (some piece) (.number value)
  | text {piece : Piece} :
      (Text.trim piece.text).head? ≠ some formulaMark →
      Number.read? (Text.trim piece.text) = none →
      Written store (some piece) (.text
        (.ofRange (piece.start + byteLength (Text.indent piece.text))
          (piece.start + byteLength (Text.indent piece.text) + byteLength (Text.trim piece.text)))
        (Text.trim piece.text))

section Reading

variable {store store' : Store} {piece : Piece} {cell : Cell}

theorem Written.extends {piece? : Option Piece} (h : Written store piece? cell)
    (hext : store.Extends store') : Written store' piece? cell := by
  cases h with
  | empty => exact .empty
  | formula hmark hreads => exact .formula hmark (hreads.extends hext)
  | number hmark hvalue => exact .number hmark hvalue
  | text hmark hvalue => exact .text hmark hvalue

theorem extends_readCell (piece : Piece) (store : Store) :
    store.Extends (Cell.read piece store).2 := by
  have hread := Formula.extends_read (Text.trim piece.text).tail store
  unfold Cell.read
  dsimp only
  split
  · split
    · next root store' h => simpa [h] using hread
    · next e store' h => simpa [h] using hread
  · split
    · exact .refl store
    · exact .refl store

theorem size_readCell_le (piece : Piece) (store : Store) :
    (Cell.read piece store).2.size ≤ store.size + piece.text.length := by
  have hread := Formula.size_read_le (Text.trim piece.text).tail store
  have htrim := Text.length_trim_le piece.text
  rw [List.length_tail] at hread
  unfold Cell.read
  dsimp only
  split
  · split
    · next root store' h => rw [h] at hread; dsimp only at hread ⊢; omega
    · next e store' h => rw [h] at hread; dsimp only at hread ⊢; omega
  · split
    · exact Nat.le_add_right _ _
    · exact Nat.le_add_right _ _

theorem written_of_readCell (h : Cell.read piece store = (.ok cell, store'))
    (hsize : store'.size ≤ 2 ^ 32) : Written store' (some piece) cell := by
  unfold Cell.read at h
  dsimp only at h
  split at h
  · next hmark =>
    split at h
    · next root store₁ hread =>
      cases h
      exact .formula hmark (Formula.read_spec hread hsize)
    · cases h
  · next hmark =>
    split at h
    · next value hvalue =>
      cases h
      exact .number hmark hvalue
    · next hvalue =>
      cases h
      exact .text hmark hvalue

/-! ### Tables -/

theorem extends_readCells (before : Array Cell) (slots : List (Position × Option Piece))
    (store : Store) : store.Extends (readCells before slots store).2 := by
  fun_induction readCells before slots store with
  | case1 before store => exact .refl store
  | case2 before p rest store ih => exact ih
  | case3 before p piece rest store cell store₁ hcell ih =>
      have hext := extends_readCell piece store
      rw [hcell] at hext
      exact hext.trans ih
  | case4 before p piece rest store cause store₁ hcell =>
      have hext := extends_readCell piece store
      rwa [hcell] at hext

theorem size_readCells_le (before : Array Cell) (slots : List (Position × Option Piece))
    (store : Store) : (readCells before slots store).2.size ≤ store.size + slotsLength slots := by
  fun_induction readCells before slots store with
  | case1 before store => exact Nat.le_add_right _ _
  | case2 before p rest store ih => simpa using ih
  | case3 before p piece rest store cell store₁ hcell ih =>
      have hsize := size_readCell_le piece store
      rw [hcell] at hsize
      simp only [slotsLength_cons, Option.map_some, Option.getD_some] at hsize ⊢
      omega
  | case4 before p piece rest store cause store₁ hcell =>
      have hsize := size_readCell_le piece store
      rw [hcell] at hsize
      simp only [slotsLength_cons, Option.map_some, Option.getD_some] at hsize ⊢
      omega

/-- The cells that are read are those written in the slots, in the same order. -/
theorem written_of_readCells {before cells : Array Cell} {slots : List (Position × Option Piece)}
    (h : readCells before slots store = (.ok cells, store')) (hsize : store'.size ≤ 2 ^ 32) :
    ∃ added, cells.toList = before.toList ++ added ∧
      List.Forall₂ (fun slot cell => Written store' slot.2 cell) slots added := by
  fun_induction readCells before slots store with
  | case1 before store =>
      cases h
      exact ⟨[], by simp, .nil⟩
  | case2 before p rest store ih =>
      obtain ⟨added, hcells, hwritten⟩ := ih h
      exact ⟨.empty :: added, by simpa using hcells, .cons .empty hwritten⟩
  | case3 before p piece rest store cell store₁ hcell ih =>
      obtain ⟨added, hcells, hwritten⟩ := ih h
      -- The pieces behind this one only add nodes, so what was read of it stays true.
      have hext := extends_readCells (before.push cell) rest store₁
      rw [h] at hext
      have hfirst := written_of_readCell hcell (Nat.le_trans hext.size_le hsize)
      exact ⟨cell :: added, by simpa using hcells, .cons (hfirst.extends hext) hwritten⟩
  | case4 before p piece rest store cause store₁ hcell => cases h

/-- The table has the shape of its source, and in every place what becomes of the piece there. -/
structure Table.ReadsAs (source : List Char) (store : Store) (t : Table) : Prop where
  source_eq : t.source = source
  rows_eq : t.rows = (pieceRows source).length
  cols_eq : t.cols = width (pieceRows source)
  written : ∀ {p : Position} {cell : Cell}, t.get? p = some cell →
    Written store (pieceAt? source p) cell

variable {source : List Char} {before : Store} {t : Table}

/-- Reading a table leaves the store that reading its cells leaves. -/
theorem Table.snd_read (source : List Char) (store : Store) :
    (Table.read source store).2 = (readCells #[] (slots source) store).2 := by
  unfold Table.read
  split
  · next e store' h => exact (congrArg Prod.snd h).symm
  · next cells store' h => exact (congrArg Prod.snd h).symm

/-- Reading a table adds no more nodes than its source has bytes, also if it fails. -/
theorem size_readTable_le (source : List Char) (store : Store) :
    (Table.read source store).2.size ≤ store.size + byteLength source := by
  have hcells := size_readCells_le #[] (slots source) store
  have hslots := slotsLength_slots_le source
  have hbytes := Text.length_le_byteLength source
  rw [Table.snd_read]
  omega

/-- `size_readTable_le`, of a reading whose store is named. -/
theorem Table.size_le_of_read (h : Table.read source before = (.ok t, store)) :
    store.size ≤ before.size + byteLength source := by
  have hsize := size_readTable_le source before
  rwa [h] at hsize

/-- What holds of every place and its cell, one after the other, holds of the piece and the cell at
a position. -/
theorem Table.of_slots {R : Option Piece → Cell → Prop} (hrows : t.rows = (pieceRows source).length)
    (hcols : t.cols = width (pieceRows source))
    (h : List.Forall₂ (fun slot cell => R slot.2 cell) (slots source) t.cells.toList) {p : Position}
    (hp : t.get? p = some cell) : R (pieceAt? source p) cell := by
  have hinside := contains_of_get? hp
  have hslot := getElem?_slots (hrows ▸ hinside.1) (hcols ▸ hinside.2)
  rw [get?_of_contains hinside, ← Array.getElem?_toList, index, hcols] at hp
  obtain ⟨hlt, hcell⟩ := List.getElem?_eq_some_iff.1 hp
  obtain ⟨hlt', hslot⟩ := List.getElem?_eq_some_iff.1 hslot
  have hboth := (List.forall₂_iff_get.1 h).2 _ hlt' hlt
  rwa [List.get_eq_getElem, List.get_eq_getElem, hcell, hslot] at hboth

/-- A table that reads has the shape of its source. -/
theorem Table.shape_of_read (h : Table.read source before = (.ok t, store)) :
    t.rows = (pieceRows source).length ∧ t.cols = width (pieceRows source) := by
  unfold Table.read at h
  split at h
  · cases h
  · cases h
    exact ⟨rfl, rfl⟩

theorem Table.readsAs_of_size_le (h : Table.read source before = (.ok t, store))
    (hsize : store.size ≤ 2 ^ 32) : t.ReadsAs source store := by
  unfold Table.read at h
  split at h
  · cases h
  · next cells store₁ hread =>
    cases h
    obtain ⟨added, hcells, hwritten⟩ := written_of_readCells hread hsize
    obtain rfl : cells.toList = added := hcells
    exact ⟨rfl, rfl, rfl, fun hp => of_slots rfl rfl hwritten hp⟩

theorem Table.readsAs_of_read (h : Table.read source before = (.ok t, store))
    (hroom : before.size + byteLength source ≤ 2 ^ 32) : t.ReadsAs source store :=
  readsAs_of_size_le h (Nat.le_trans (size_le_of_read h) hroom)

/-- Whether a source reads and its table passes a check. -/
def Table.readsTo (source : List Char) (check : Table → Store → Bool) : Bool :=
  match Table.read source .empty with
  | (.ok t, store) => check t store
  | (.error _, _) => false

theorem Table.exists_of_readsTo {check : Table → Store → Bool}
    (h : Table.readsTo source check = true) :
    ∃ t store, Table.read source .empty = (.ok t, store) ∧ check t store = true := by
  unfold readsTo at h
  split at h
  · next t store hread => exact ⟨t, store, hread, h⟩
  · cases h

namespace Table.ReadsAs

variable {p : Position} {f : FormulaCell}

/-- A formula of the table says what the text in its place says. -/
theorem formula (h : t.ReadsAs source store) (hp : t.get? p = some (.formula f)) :
    ∃ piece, pieceAt? source p = some piece ∧ f.status = .unevaluated ∧
      Reads (Text.trim piece.text).tail store f.root := by
  have hwritten := h.written hp
  cases hpiece : pieceAt? source p with
  | none =>
      rw [hpiece] at hwritten
      cases hwritten
  | some piece =>
      rw [hpiece] at hwritten
      cases hwritten with
      | formula hmark hreads => exact ⟨piece, rfl, rfl, hreads⟩

/-- No formula of the table was begun. -/
theorem unevaluated (h : t.ReadsAs source store) (hp : t.get? p = some (.formula f)) :
    f.status = .unevaluated := by
  obtain ⟨_, _, hstatus, _⟩ := h.formula hp
  exact hstatus

theorem rooted (h : t.ReadsAs source store) : t.Rooted store := by
  intro p f hp
  obtain ⟨piece, _, _, hreads⟩ := h.formula hp
  exact ⟨_, hreads.tree?_eq⟩

/-- A text of the table is the trimmed piece in its place, and its span says where it is. -/
theorem text (h : t.ReadsAs source store) (hsize : byteLength source < 2 ^ 32) {span : Span}
    {content : List Char} (hp : t.get? p = some (.text span content)) :
    ∃ piece, pieceAt? source p = some piece ∧ content = Text.trim piece.text ∧
      t.text? span = some content := by
  have hwritten := h.written hp
  cases hpiece : pieceAt? source p with
  | none =>
      rw [hpiece] at hwritten
      cases hwritten
  | some piece =>
      rw [hpiece] at hwritten
      cases hwritten with
      | text hmark hvalue =>
          refine ⟨piece, rfl, rfl, ?_⟩
          rw [Table.text?, h.source_eq]
          exact slice?_of_within (within_of_pieceAt? hpiece) hsize

end Table.ReadsAs

end Reading

end PipeSheet
