import Mathlib.Algebra.Order.BigOperators.Group.List
import Mathlib.Algebra.Order.Ring.Nat
import PipeSheet.Proofs.Formula.Records
import PipeSheet.Proofs.Safety.Checked
import PipeSheet.Proofs.Table.Reading
/-!
# PipeSheet.Proofs.Safety.Reading

**Reading a source uses no operation outside its domain.**

Ids do not run out as long as every node of the store that is left at the end has one. This is so
when the source is short, because a formula adds no more nodes than it has characters. The cells of
a table are as many as its lines times its longest line has pieces, and a source that has fewer than
2³² bytes has fewer than 2³² lines and at most as many pieces in each.

Filling cells in place gives what reading them in order gives: after some places, the cells are
those read so far, followed by empty ones (`fill_eq`).

* `Checked.read_eq`: reading a formula;
* `length_lines_le`, `length_pieces_le`, `area_lt`: the shape of a table;
* `Checked.readTable_eq`: reading a table.
-/

namespace PipeSheet

open Formula (FormulaError Lexeme Node NodeId Operand Store ok_bind)
open Text (Piece byteLength)

/-! ### Formulas -/

namespace Checked

theorem push_eq {store : Store} {node : Node} (hsize : store.size + 1 < 2 ^ 32)
    (hchildren : ∀ child ∈ node.children, child.index < store.size) :
    push store node = .ok (store.push node) := by
  have hroom : store.size < NodeId.invalid.index := by
    show store.size < 2 ^ 32 - 1
    omega
  have hnone : (node.children.find? fun child => decide (store.size ≤ child.index)) = none := by
    rw [List.find?_eq_none]
    intro child hchild
    simpa using hchildren child hchild
  rw [push, if_pos hroom, hnone]

theorem index_push {store : Store} (hsize : store.size + 1 < 2 ^ 32) (node : Node) :
    (store.push node).1.index = store.size := by
  rw [Formula.Store.fst_push, NodeId.index_ofIndex (by omega)]

theorem addSums_eq {last : NodeId} {pending : List NodeId} {store : Store}
    (hsize : store.size + pending.length < 2 ^ 32) (hlast : last.index < store.size)
    (hpending : ∀ id ∈ pending, id.index < store.size) :
    addSums last pending store = .ok (Formula.addSums last pending store) := by
  induction pending generalizing last store with
  | nil => rfl
  | cons lhs pending ih =>
      rw [List.length_cons] at hsize
      have hroom : store.size + 1 < 2 ^ 32 := by omega
      have hpush : push store (.plus lhs last) = .ok (store.push (.plus lhs last)) := by
        refine push_eq hroom fun child hchild => ?_
        rcases List.mem_cons.1 hchild with rfl | hchild
        · exact hpending _ List.mem_cons_self
        · rwa [List.mem_singleton.1 hchild]
      rw [addSums, hpush, ok_bind, Formula.addSums_cons]
      refine @ih (store.push (.plus lhs last)).1 (store.push (.plus lhs last)).2 ?_ ?_
        fun id hid => ?_
      · rw [Formula.Store.size_push]
        omega
      · rw [index_push hroom, Formula.Store.size_push]
        omega
      · have := hpending id (List.mem_cons_of_mem _ hid)
        rw [Formula.Store.size_push]
        omega

/-- There is room for all nodes when they have ids at the end. -/
theorem readSum_eq {stop : Span} {pending : List NodeId} {lexemes : List Lexeme} {store : Store}
    (hsize : (Formula.readSum stop pending lexemes store).2.size < 2 ^ 32)
    (hpending : ∀ id ∈ pending, id.index < store.size) :
    readSum stop pending lexemes store = .ok (Formula.readSum stop pending lexemes store) := by
  have hpush : ∀ {store : Store} {operand : Operand}, store.size + 1 < 2 ^ 32 →
      push store operand.node = .ok (store.push operand.node) := by
    intro store operand hroom
    refine push_eq hroom fun child hchild => ?_
    cases operand <;> cases hchild
  have hafter : ∀ {store store₁ : Store} {node : Node} {id : NodeId}, store₁.size < 2 ^ 32 →
      store.push node = (id, store₁) → store₁.size = store.size + 1 ∧ id.index = store.size := by
    intro store store₁ node id hroom hpushed
    obtain rfl : (store.push node).2 = store₁ := congrArg Prod.snd hpushed
    obtain rfl : (store.push node).1 = id := congrArg Prod.fst hpushed
    rw [Formula.Store.size_push] at hroom
    exact ⟨Formula.Store.size_push store node, index_push hroom node⟩
  have hsums : ∀ {pending : List NodeId} {store store₁ store₂ : Store} {node : Node}
      {id root : NodeId}, store₂.size < 2 ^ 32 → (∀ i ∈ pending, i.index < store.size) →
      store.push node = (id, store₁) → Formula.addSums id pending store₁ = (root, store₂) →
      store.size + 1 < 2 ^ 32 ∧ addSums id pending store₁ = .ok (root, store₂) := by
    intro pending store store₁ store₂ node id root hroom hbefore hpushed hadded
    have hadds := Formula.size_addSums id pending store₁
    rw [hadded] at hadds
    dsimp only at hadds
    have hroom₁ : store₁.size < 2 ^ 32 := by omega
    obtain ⟨hsize₁, hid⟩ := hafter hroom₁ hpushed
    have hall : ∀ i ∈ pending, i.index < store₁.size := by
      intro i hi
      have := hbefore i hi
      omega
    have hchecked : addSums id pending store₁ = .ok (Formula.addSums id pending store₁) :=
      addSums_eq (by omega) (by omega) hall
    exact ⟨by omega, by rw [hchecked, hadded]⟩
  fun_induction Formula.readSum stop pending lexemes store with
  | case1 | case2 => rfl
  | case3 pending t rest store hnone => simp [readSum, hnone]
  | case4 pending t store operand hsome id store₁ hpushed u rest =>
      dsimp only at hsize
      obtain ⟨hsize₁, _⟩ := hafter hsize hpushed
      rw [readSum, hsome]
      dsimp only
      rw [hpush (by omega), hpushed, ok_bind]
  | case5 pending t store operand hsome id store₁ hpushed text span rest ih =>
      have hle := (Formula.extends_readSum stop (id :: pending) rest store₁).size_le
      obtain ⟨hsize₁, hid⟩ := hafter (by omega) hpushed
      rw [readSum, hsome]
      dsimp only
      rw [hpush (by omega), hpushed, ok_bind]
      refine ih hsize fun i hi => ?_
      rcases List.mem_cons.1 hi with rfl | hi
      · omega
      · have := hpending i hi
        omega
  | case6 pending t store operand hsome id store₁ hpushed text span rest root store₂ hadded =>
      obtain ⟨hroom, hchecked⟩ := hsums hsize hpending hpushed hadded
      rw [readSum, hsome]
      dsimp only
      rw [hpush hroom, hpushed, ok_bind, hchecked, ok_bind]
  | case7 pending t store operand hsome id store₁ hpushed root store₂ hadded =>
      obtain ⟨hroom, hchecked⟩ := hsums hsize hpending hpushed hadded
      rw [readSum, hsome]
      dsimp only
      rw [hpush hroom, hpushed, ok_bind, hchecked, ok_bind]

theorem read_eq {source : List Char} {store : Store}
    (hsize : (Formula.read source store).2.size < 2 ^ 32) :
    read source store = .ok (Formula.read source store) :=
  readSum_eq hsize fun _ hid => absurd hid List.not_mem_nil

theorem readCell_eq {piece : Piece} {store : Store}
    (hsize : (Cell.read piece store).2.size < 2 ^ 32) :
    readCell piece store = .ok (Cell.read piece store) := by
  unfold readCell
  dsimp only
  split
  · next hmark =>
    unfold Cell.read at hsize ⊢
    dsimp only at hsize ⊢
    rw [if_pos hmark] at hsize ⊢
    cases hread : Formula.read (Text.trim piece.text).tail store with
    | mk result store' =>
        rw [hread] at hsize
        rw [read_eq (by rw [hread]; cases result <;> exact hsize), hread]
        cases result <;> rfl
  · rfl

end Checked

/-! ### The shape of a table -/

namespace Text

/-- A text has as many characters as its pieces and the separators between them. -/
theorem sum_length_pieces_add (sep : Char) (s : List Char) :
    ((pieces sep s).map List.length).sum + (pieces sep s).length = s.length + 1 := by
  induction s with
  | nil => rfl
  | cons c rest ih =>
      by_cases hc : c = sep
      · subst hc
        simp only [pieces_cons_sep, List.map_cons, List.sum_cons, List.length_cons,
          List.length_nil] at ih ⊢
        omega
      · obtain ⟨first, others, hpieces⟩ := List.exists_cons_of_ne_nil (pieces_ne_nil sep rest)
        rw [pieces_cons_of_ne hc]
        simp only [hpieces, List.headD_cons, List.tail_cons, List.map_cons, List.sum_cons,
          List.length_cons] at ih ⊢
        omega

theorem length_pieces_le (sep : Char) (s : List Char) : (pieces sep s).length ≤ s.length + 1 := by
  have h := sum_length_pieces_add sep s
  omega

/-- Every line has a line end, or it is the last one and not empty. -/
theorem length_lines_le (s : List Char) : (lines s).length ≤ s.length := by
  have hsum := sum_length_pieces_add '\n' s
  unfold lines
  dsimp only
  split
  · rw [List.length_dropLast]
    omega
  · next hlast =>
    have hpos : 0 < ((pieces '\n' s).map List.length).sum := by
      have hne := pieces_ne_nil '\n' s
      rw [List.getLast?_eq_some_getLast hne, Option.some_inj] at hlast
      have hmem := List.mem_map_of_mem (f := List.length) (List.getLast_mem hne)
      exact Nat.lt_of_lt_of_le (List.length_pos_iff.2 hlast) (List.le_sum_of_mem hmem)
    omega

end Text

/-- A table has fewer than 2⁶⁴ cells. -/
theorem area_lt {source : List Char} (h : byteLength source < 2 ^ 32) :
    (pieceRows source).length * width (pieceRows source) < 2 ^ 64 := by
  have hbytes := Text.length_le_byteLength source
  have hrows : (pieceRows source).length ≤ source.length := by
    rw [pieceRows, List.length_map, Text.length_locate]
    exact Text.length_lines_le source
  have hcols : width (pieceRows source) ≤ source.length + 1 := by
    refine width_le fun row hrow => ?_
    obtain ⟨line, hline, rfl⟩ := List.mem_map.1 hrow
    have hmem : line.text ∈ Text.lines source := by
      rw [← Text.map_text_locate 0 (Text.lines source)]
      exact List.mem_map_of_mem hline
    have hle := List.le_sum_of_mem (List.mem_map_of_mem (f := List.length) hmem)
    have hsum := Text.sum_length_lines_le source
    have hpieces := Text.length_pieces_le cellSeparator line.text
    rw [Text.length_locate]
    omega
  calc _ ≤ source.length * (source.length + 1) := Nat.mul_le_mul hrows hcols
    _ ≤ (2 ^ 32 - 1) * 2 ^ 32 := Nat.mul_le_mul (by omega) (by omega)
    _ < 2 ^ 64 := by decide

/-! ### Filling cells in place -/

/-- The pieces that are written in some slots. -/
def writtenSlots (slots : List (Position × Option Piece)) : List (Position × Piece) :=
  slots.filterMap fun slot => slot.2.map fun piece => (slot.1, piece)

theorem writtenPieces_eq (source : List Char) :
    Checked.writtenPieces source = writtenSlots (slots source) := by
  rw [writtenSlots, slots, Checked.writtenPieces]
  dsimp only
  rw [List.filterMap_flatMap]
  congr 1
  funext ⟨row, r⟩
  have hnone : ∀ k n : Nat, ((List.replicate n (none : Option Piece)).zipIdx k).filterMap
      (fun slot => slot.1.map fun piece => ((⟨r, slot.2⟩ : Position), piece)) = [] := by
    intro k n
    rw [List.filterMap_eq_nil_iff]
    rintro ⟨piece?, c⟩ hmem
    rw [List.eq_of_mem_replicate (List.fst_mem_of_mem_zipIdx hmem)]
    rfl
  have hsome : ((row.map some).zipIdx 0).filterMap
      (fun slot => slot.1.map fun piece => ((⟨r, slot.2⟩ : Position), piece)) =
        row.zipIdx.map fun slot => (⟨r, slot.2⟩, slot.1) := by
    rw [List.zipIdx_map, List.filterMap_map, ← List.filterMap_eq_map]
    rfl
  rw [List.filterMap_map, fillUp, List.zipIdx_append, List.filterMap_append]
  refine Eq.trans ?_ (congrArg₂ (· ++ ·) hsome (hnone _ _)).symm
  rw [List.append_nil]

namespace Checked

/-- Filling the rest of the cells in place is reading them in order. -/
theorem fill_eq {size cols : Nat} {slots : List (Position × Option Piece)} {before : Array Cell}
    {cells : Vector Cell size} {store : Store} (hbound : size ≤ 2 ^ 64)
    (hlength : before.size + slots.length = size)
    (hslots : ∀ (k : Nat) (p : Position) (piece? : Option Piece),
      slots[k]? = some (p, piece?) → p.row * cols + p.col = before.size + k)
    (hcells : cells.toList = before.toList ++ List.replicate slots.length .empty)
    (hstore : (readCells before slots store).2.size < 2 ^ 32) :
    ∃ result store', fill cols (writtenSlots slots) cells store = .ok (result, store') ∧
      readCells before slots store = (result.map Vector.toArray, store') := by
  induction slots generalizing before cells store with
  | nil =>
      refine ⟨.ok cells, store, rfl, ?_⟩
      have heq : before = cells.toArray :=
        Array.toList_inj.1 (hcells.trans (List.append_nil _)).symm
      rw [readCells, heq]
      rfl
  | cons slot rest ih =>
      rw [List.length_cons] at hlength
      rw [List.length_cons, List.replicate_succ] at hcells
      have hrest : ∀ (k : Nat) (p : Position) (piece? : Option Piece),
          rest[k]? = some (p, piece?) → p.row * cols + p.col = before.size + 1 + k := by
        intro k p piece? h
        have := hslots (k + 1) p piece? h
        omega
      obtain ⟨p, _ | piece⟩ := slot
      · refine ih ?_ ?_ ?_ ?_
        · rw [Array.size_push]
          omega
        · rwa [Array.size_push]
        · rw [hcells, Array.toList_push]
          simp
        · exact hstore
      · have hfill : fill cols (writtenSlots ((p, some piece) :: rest)) cells store =
            readCell piece store >>= _ := rfl
        rw [readCells] at hstore ⊢
        cases hcell : Cell.read piece store with
        | mk result store₁ =>
            rw [hcell] at hstore
            have hroom : store₁.size < 2 ^ 32 := by
              cases result with
              | error cause => exact hstore
              | ok cell =>
                  exact Nat.lt_of_le_of_lt
                    (extends_readCells (before.push cell) rest store₁).size_le hstore
            have hread : readCell piece store = .ok (result, store₁) := by
              rw [readCell_eq (by rwa [hcell]), hcell]
            rw [hfill, hread, ok_bind]
            cases result with
            | error cause => exact ⟨.error ⟨p, cause⟩, store₁, rfl, rfl⟩
            | ok cell =>
                dsimp only
                have hindex := hslots 0 p (some piece) rfl
                have hlt : before.size < size := by omega
                have hchecked : index cols p = .ok before.size := by
                  rw [index, hindex, Nat.add_zero, if_pos (Nat.lt_of_lt_of_le hlt hbound)]
                rw [hchecked, ok_bind, dif_pos hlt]
                refine ih ?_ ?_ ?_ ?_
                · rw [Array.size_push]
                  omega
                · rwa [Array.size_push]
                · have hbefore : before.toList.length = before.size := Array.length_toList
                  rw [Vector.toList_set, hcells, Array.toList_push,
                    List.set_append_right _ _ (Nat.le_of_eq hbefore), hbefore, Nat.sub_self]
                  simp
                · exact hstore

/-- Finding the shape first and then filling the cells in place is reading the table, when the cells
can be counted and every node has an id at the end. -/
theorem readTable_eq_of_area {source : List Char} {store : Store}
    (harea : (pieceRows source).length * width (pieceRows source) < 2 ^ 64)
    (hids : (Table.read source store).2.size < 2 ^ 32) :
    readTable source store = .ok (Table.read source store) := by
  have hempty : (Vector.replicate ((pieceRows source).length * width (pieceRows source))
      Cell.empty).toList = (#[] : Array Cell).toList ++
        List.replicate (slots source).length .empty := by
    rw [Vector.toList_replicate, length_slots]
    rfl
  rw [Table.snd_read] at hids
  obtain ⟨result, store', hfill, hcells⟩ := fill_eq (Nat.le_of_lt harea)
    (by rw [length_slots]; exact Nat.zero_add _)
    (fun k p piece? hk => by rw [(of_getElem?_slots hk).2.2.1]; exact (Nat.zero_add k).symm)
    hempty hids
  unfold readTable
  dsimp only
  rw [if_pos harea, writtenPieces_eq, hfill, ok_bind]
  unfold Table.read
  split
  · next e store₁ heq =>
    rw [hcells] at heq
    cases result with
    | ok cells => cases heq
    | error e => cases heq; rfl
  · next cells store₁ heq =>
    rw [hcells] at heq
    cases result with
    | ok cells => cases heq; rfl
    | error e => cases heq

theorem readTable_eq_of_size {source : List Char} {store : Store}
    (hsource : byteLength source < 2 ^ 32) (hids : (Table.read source store).2.size < 2 ^ 32) :
    readTable source store = .ok (Table.read source store) :=
  readTable_eq_of_area (area_lt hsource) hids

/-- Reading a table never leaves the domain of an operation, and it is what the program does. -/
theorem readTable_eq {source : List Char} {store : Store}
    (h : store.size + byteLength source < 2 ^ 32) :
    readTable source store = .ok (Table.read source store) := by
  have hsize := size_readTable_le source store
  exact readTable_eq_of_size (by omega) (by omega)

end Checked

end PipeSheet
