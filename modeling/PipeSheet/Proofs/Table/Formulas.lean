import PipeSheet.Proofs.Evaluation.Accounting
import PipeSheet.Proofs.Formula.Allocation
import PipeSheet.Proofs.Table.Moved
/-!
# PipeSheet.Proofs.Table.Formulas

**Of a table, the store keeps its formulas, one block behind the other.**

Only the places with a formula make a difference to the store, so reading a table is reading the
texts of its formulas in their order (`readFormulas_of_readCells_ok`), each as if it stood alone.
The first one that is no formula ends the reading, with the error that it has alone, and leaves what
a formula leaves that fails. If there is none, the nodes of each formula are a block that ends with
its root, and the blocks follow one another as the cells do.

* `formulaTexts`: the places of a source with a formula, each with its text;
* `readFormulas`: reading some formulas into a store;
* `Store.Blocks`: nodes that are one block for each of some roots;
* `Table.read_formulas`: the law.
-/

namespace PipeSheet

open Formula (FailsAfter FormulaError NodeId Operand Store lexemes)
open Text (Piece byteLength)

/-! ### The formulas of a source -/

/-- The text of the formula that a piece writes, without the sign that marks it. -/
def formulaText? (piece : Piece) : Option (List Char) :=
  let content := Text.trim piece.text
  if content.head? = some formulaMark then some content.tail else none

/-- The places with a formula among some places, each with its text. -/
def formulaTexts (places : List (Position × Option Piece)) : List (Position × List Char) :=
  places.filterMap fun (p, piece?) => (piece?.bind formulaText?).map (p, ·)

/-- Row by row, one position comes before another one. -/
def Position.Before (p q : Position) : Prop :=
  p.row < q.row ∨ p.row = q.row ∧ p.col < q.col

section Texts

variable {source text : List Char} {p : Position} {piece : Piece}
  {places : List (Position × Option Piece)}

theorem formulaTexts_cons_other (h : formulaText? piece = none) :
    formulaTexts ((p, some piece) :: places) = formulaTexts places :=
  List.filterMap_cons_none (by simp [h])

theorem formulaTexts_cons_formula (h : formulaText? piece = some text) :
    formulaTexts ((p, some piece) :: places) = (p, text) :: formulaTexts places :=
  List.filterMap_cons_some (by simp [h])

theorem formulaText?_eq_some_iff :
    formulaText? piece = some text ↔ Text.trim piece.text = formulaMark :: text := by
  rw [formulaText?, Option.ite_none_right_eq_some]
  constructor
  · intro ⟨hmark, htail⟩
    obtain rfl := Option.some.inj htail
    exact (List.cons_head?_tail hmark).symm
  · intro h
    rw [h]
    exact ⟨rfl, rfl⟩

/-- The formulas of a source are those that its pieces write. -/
theorem mem_formulaTexts : (p, text) ∈ formulaTexts (slots source) ↔
    ∃ piece, pieceAt? source p = some piece ∧ formulaText? piece = some text := by
  rw [formulaTexts, List.mem_filterMap]
  constructor
  · rintro ⟨⟨q, piece?⟩, hslot, htext⟩
    obtain ⟨text', hpiece, heq⟩ := Option.map_eq_some_iff.1 htext
    cases heq
    obtain ⟨k, hk⟩ := List.mem_iff_getElem?.1 hslot
    obtain ⟨_, _, _, rfl⟩ := of_getElem?_slots hk
    exact Option.bind_eq_some_iff.1 hpiece
  · rintro ⟨piece, hpiece, htext⟩
    obtain ⟨hrow, hcol⟩ := lt_of_pieceAt? hpiece
    have hslot := getElem?_slots hrow hcol
    refine ⟨_, List.mem_of_getElem? hslot, ?_⟩
    rw [hpiece]
    simp only [Option.bind_some, htext, Option.map_some]

/-- The places of a source are taken row by row. -/
theorem pairwise_slots (source : List Char) :
    (slots source).Pairwise fun a b => a.1.Before b.1 := by
  refine List.pairwise_iff_getElem.2 fun i j hi hj hlt => ?_
  obtain ⟨_, hicol, hi, _⟩ := of_getElem?_slots (List.getElem?_eq_getElem hi)
  obtain ⟨_, hjcol, hj, _⟩ := of_getElem?_slots (List.getElem?_eq_getElem hj)
  refine Position.lt_of_index_lt hjcol ?_
  rw [← hi, ← hj] at hlt
  exact hlt

theorem pairwise_formulaTexts (source : List Char) :
    (formulaTexts (slots source)).Pairwise fun a b => a.1.Before b.1 := by
  refine (pairwise_slots source).filterMap _ fun a b hab c hc d hd => ?_
  obtain ⟨_, _, rfl⟩ := Option.map_eq_some_iff.1 hc
  obtain ⟨_, _, rfl⟩ := Option.map_eq_some_iff.1 hd
  exact hab

/-- What is in front of a formula of a source is in front of it in their order. -/
theorem mem_earlier_of_lt {earlier later : List (Position × List Char)} {q : Position}
    {other : List Char} (h : formulaTexts (slots source) = earlier ++ (p, text) :: later)
    (hmem : (q, other) ∈ formulaTexts (slots source)) (hlt : q < p) : (q, other) ∈ earlier := by
  have hpairs := pairwise_formulaTexts source
  rw [h] at hpairs hmem
  rcases List.mem_append.1 hmem with hearlier | hrest
  · exact hearlier
  · -- Nothing in the rest comes before its first place.
    have hrest' := (List.pairwise_append.1 hpairs).2.1
    rcases List.mem_cons.1 hrest with hsame | hlater
    · exact absurd (congrArg Prod.fst hsame) (Position.ne_of_lt hlt)
    · have hafter : p < q := (List.pairwise_cons.1 hrest').1 _ hlater
      rw [Position.lt_iff] at hlt hafter
      omega

end Texts

/-! ### Reading formulas -/

/-- Reads some formulas in order: their places with their roots, until one does not read. -/
def readFormulas : List (Position × List Char) → Store →
    Except TableError (List (Position × NodeId)) × Store
  | [], store => (.ok [], store)
  | (p, text) :: rest, store =>
    match Formula.read text store with
    | (.error cause, store) => (.error ⟨p, cause⟩, store)
    | (.ok root, store) =>
      match readFormulas rest store with
      | (.error e, store) => (.error e, store)
      | (.ok roots, store) => (.ok ((p, root) :: roots), store)

/-- The nodes of some formulas, each read alone, one behind the other at the end of a store. -/
def Formula.Store.withFormulas (store : Store) (formulas : List (Position × List Char)) : Store :=
  formulas.foldl (fun store found => (Formula.read found.2 .empty).2.behind store) store

section Formulas

variable {store after : Store} {formulas : List (Position × List Char)} {e : TableError}
  {roots : List (Position × NodeId)}

theorem extends_readFormulas (formulas : List (Position × List Char)) (store : Store) :
    store.Extends (readFormulas formulas store).2 := by
  fun_induction readFormulas formulas store with
  | case1 store => exact .refl store
  | case2 p text rest store cause store₁ hread =>
      have hext := Formula.extends_read text store
      rwa [hread] at hext
  | case3 p text rest store root store₁ hread e store₂ hrest ih =>
      have hext := Formula.extends_read text store
      rw [hread] at hext
      rw [hrest] at ih
      exact hext.trans ih
  | case4 p text rest store root store₁ hread roots store₂ hrest ih =>
      have hext := Formula.extends_read text store
      rw [hread] at hext
      rw [hrest] at ih
      exact hext.trans ih

/-- Reading a formula leaves what reading it alone gives, behind the store. -/
theorem eq_behind_of_read {text : List Char} {result : Except FormulaError NodeId}
    (h : Formula.read text store = (result, after)) :
    after = (Formula.read text .empty).2.behind store := by
  rw [Formula.read_eq_behind] at h
  exact (congrArg Prod.snd h).symm

/-- Reading formulas fails at the first one that fails alone. -/
theorem exists_of_readFormulas_error (h : readFormulas formulas store = (.error e, after)) :
    ∃ earlier text later, formulas = earlier ++ (e.cell, text) :: later ∧
      (∀ found ∈ earlier, ∃ root, (Formula.read found.2 .empty).1 = .ok root) ∧
      Formula.read text (store.withFormulas earlier) = (.error e.cause, after) := by
  fun_induction readFormulas formulas store with
  | case1 store => cases h
  | case2 p text rest store cause store₁ hread =>
      cases h
      exact ⟨[], text, rest, rfl, by simp, hread⟩
  | case3 p text rest store root store₁ hread e' store₂ hrest ih =>
      cases h
      obtain ⟨earlier, text', later, rfl, hearlier, hfails⟩ := ih hrest
      have halone := Formula.exists_fst_read_eq_ok (congrArg Prod.fst hread)
      rw [eq_behind_of_read hread] at hfails
      exact ⟨(p, text) :: earlier, text', later, rfl,
        List.forall_mem_cons.2 ⟨halone, hearlier⟩, hfails⟩
  | case4 p text rest store root store₁ hread roots store₂ hrest ih => cases h

/-- If reading formulas succeeds, all of them read alone, and behind the store are their nodes. -/
theorem of_readFormulas_ok (h : readFormulas formulas store = (.ok roots, after)) :
    (∀ found ∈ formulas, ∃ root, (Formula.read found.2 .empty).1 = .ok root) ∧
      after = store.withFormulas formulas ∧ roots.map Prod.fst = formulas.map Prod.fst := by
  fun_induction readFormulas formulas store generalizing roots with
  | case1 store =>
      cases h
      exact ⟨by simp, rfl, rfl⟩
  | case2 p text rest store cause store₁ hread => cases h
  | case3 p text rest store root store₁ hread e' store₂ hrest ih => cases h
  | case4 p text rest store root store₁ hread roots store₂ hrest ih =>
      cases h
      obtain ⟨hall, hafter, hplaces⟩ := ih hrest
      have halone := Formula.exists_fst_read_eq_ok (congrArg Prod.fst hread)
      rw [eq_behind_of_read hread] at hafter
      exact ⟨List.forall_mem_cons.2 ⟨halone, hall⟩, hafter, congrArg _ hplaces⟩

/-! ### Blocks -/

/-- From an index on, the nodes of a store are one block for each of some roots. A block consists of
the nodes under its root, which is the last of them. -/
inductive Formula.Store.Blocks (s : Store) : Nat → List NodeId → Prop
  | nil : Blocks s s.size []
  | cons {first : Nat} {root : NodeId} {roots : List NodeId} :
      (∀ i, s.Under root.index i ↔ first ≤ i ∧ i ≤ root.index) →
      Blocks s (root.index + 1) roots → Blocks s first (root :: roots)

theorem blocks_of_readFormulas (h : readFormulas formulas store = (.ok roots, after))
    (hsize : after.size ≤ 2 ^ 32) : after.Blocks store.size (roots.map Prod.snd) := by
  fun_induction readFormulas formulas store generalizing roots with
  | case1 store =>
      cases h
      exact .nil
  | case2 p text rest store cause store₁ hread => cases h
  | case3 p text rest store root store₁ hread e' store₂ hrest ih => cases h
  | case4 p text rest store root store₁ hread roots store₂ hrest ih =>
      cases h
      -- The formulas behind this one only add nodes, so what is under its root stays the same.
      have hext := extends_readFormulas rest store₁
      rw [hrest] at hext
      have hsize₁ := Nat.le_trans hext.size_le hsize
      have hroot := Formula.index_root_of_read hread hsize₁
      refine .cons (fun i => ?_) (hroot ▸ ih hrest)
      rw [Formula.under_iff_of_read hread hext hsize₁]
      show _ ↔ store.size ≤ i ∧ i ≤ root.index
      omega

end Formulas

/-! ### Reading cells is reading formulas -/

/-- The root of the formula in a cell. -/
def Cell.root? : Cell → Option NodeId
  | .formula f => some f.root
  | _ => none

/-- The places with a formula among some places with their cells, each with its root. -/
def rootsAt (places : List Position) (cells : List Cell) : List (Position × NodeId) :=
  (places.zip cells).filterMap fun (p, cell) => cell.root?.map (p, ·)

section Cells

variable {store after : Store} {piece : Piece} {p : Position} {places : List Position}
  {cells : List Cell} {cell : Cell}

theorem rootsAt_cons_formula {root : NodeId} :
    rootsAt (p :: places) (.formula { root } :: cells) = (p, root) :: rootsAt places cells :=
  List.filterMap_cons_some rfl

theorem rootsAt_cons_other (h : cell.root? = none) :
    rootsAt (p :: places) (cell :: cells) = rootsAt places cells :=
  List.filterMap_cons_none (by simp [h])

/-- A cell that reads is a formula if its piece writes one, and otherwise no node is added. -/
theorem of_readCell_ok (h : Cell.read piece store = (.ok cell, after)) :
    (formulaText? piece = none ∧ cell.root? = none ∧ after = store) ∨
    ∃ text root, formulaText? piece = some text ∧ cell = .formula { root } ∧
      Formula.read text store = (.ok root, after) := by
  rcases readCell_cases h with ⟨root, rfl, hmark, hread⟩ | ⟨hother, hmark, rfl⟩
  · exact .inr ⟨_, root, if_pos hmark, rfl, hread⟩
  · refine .inl ⟨if_neg hmark, ?_, rfl⟩
    cases cell with
    | formula f => exact absurd rfl (hother f)
    | _ => rfl

/-- A cell that does not read is a formula that does not. -/
theorem of_readCell_error {cause : FormulaError}
    (h : Cell.read piece store = (.error cause, after)) :
    ∃ text, formulaText? piece = some text ∧
      Formula.read text store = (.error cause, after) := by
  unfold Cell.read at h
  dsimp only at h
  split at h
  · next hmark =>
    split at h
    · cases h
    · next e store₁ hread =>
      cases h
      exact ⟨_, if_pos hmark, hread⟩
  · split at h
    · cases h
    · cases h

/-- Cells do not read if the formulas among their places do not. -/
theorem readFormulas_of_readCells_error {before : Array Cell} {e : TableError}
    {slots : List (Position × Option Piece)}
    (h : readCells before slots store = (.error e, after)) :
    readFormulas (formulaTexts slots) store = (.error e, after) := by
  fun_induction readCells before slots store with
  | case1 before store => cases h
  | case2 before p rest store ih => exact ih h
  | case3 before p piece rest store cell store₁ hcell ih =>
      rcases of_readCell_ok hcell with ⟨hother, _, rfl⟩ | ⟨text, root, htext, rfl, hread⟩
      · rw [formulaTexts_cons_other hother]
        exact ih h
      · rw [formulaTexts_cons_formula htext, readFormulas, hread]
        dsimp only
        rw [ih h]
  | case4 before p piece rest store cause store₁ hcell =>
      obtain ⟨text, htext, hread⟩ := of_readCell_error hcell
      cases h
      rw [formulaTexts_cons_formula htext, readFormulas, hread]

/-- The formulas among cells that read are those among their places. -/
theorem readFormulas_of_readCells_ok {before after' : Array Cell}
    {slots : List (Position × Option Piece)}
    (h : readCells before slots store = (.ok after', after)) :
    ∃ added, after'.toList = before.toList ++ added ∧
      readFormulas (formulaTexts slots) store =
        (.ok (rootsAt (slots.map Prod.fst) added), after) := by
  fun_induction readCells before slots store with
  | case1 before store =>
      cases h
      exact ⟨[], by simp, rfl⟩
  | case2 before p rest store ih =>
      obtain ⟨added, hcells, hroots⟩ := ih h
      exact ⟨.empty :: added, by simpa using hcells, hroots⟩
  | case3 before p piece rest store cell store₁ hcell ih =>
      obtain ⟨added, hcells, hroots⟩ := ih h
      refine ⟨cell :: added, by simpa using hcells, ?_⟩
      rw [List.map_cons]
      rcases of_readCell_ok hcell with ⟨hother, hroot, rfl⟩ | ⟨text, root, htext, rfl, hread⟩
      · rw [formulaTexts_cons_other hother, rootsAt_cons_other hroot]
        exact hroots
      · rw [formulaTexts_cons_formula htext, rootsAt_cons_formula, readFormulas, hread]
        dsimp only
        rw [hroots]
  | case4 before p piece rest store cause store₁ hcell => cases h

end Cells

/-! ### The formulas of a table -/

/-- The places of a table with a formula, row by row, each with its root. -/
def Table.formulaRoots (t : Table) : List (Position × NodeId) :=
  t.positions.filterMap fun p => ((t.get? p).bind Cell.root?).map (p, ·)

section Tables

variable {source : List Char} {before after : Store} {t : Table} {e : TableError}

theorem rootsAt_eq {places : List Position} {cells : List Cell} {cell? : Position → Option Cell}
    (h : places.map cell? = cells.map some) :
    rootsAt places cells = places.filterMap fun p => ((cell? p).bind Cell.root?).map (p, ·) := by
  induction places generalizing cells with
  | nil => rfl
  | cons p rest ih =>
      cases cells with
      | nil => cases h
      | cons cell cells =>
          obtain ⟨hcell, hrest⟩ := List.cons.inj h
          cases hroot : cell.root? with
          | none =>
              rw [rootsAt_cons_other hroot, List.filterMap_cons_none (by simp [hcell, hroot]),
                ih hrest]
          | some root =>
              have hhead : rootsAt (p :: rest) (cell :: cells) = (p, root) :: rootsAt rest cells :=
                List.filterMap_cons_some (by simp [hroot])
              rw [hhead, List.filterMap_cons_some (b := (p, root)) (by simp [hcell, hroot]),
                ih hrest]

theorem Table.formulaRoots_eq (t : Table) : t.formulaRoots = rootsAt t.positions t.cells.toList :=
  (rootsAt_eq t.map_get?_positions).symm

/-- The positions of a table are the places of its source. -/
theorem Table.positions_eq (hrows : t.rows = (pieceRows source).length)
    (hcols : t.cols = width (pieceRows source)) : t.positions = (slots source).map Prod.fst := by
  have hlength : t.positions.length = ((slots source).map Prod.fst).length := by
    rw [length_positions, t.size_cells, List.length_map, length_slots, hrows, hcols]
  -- Of both lists, the position at an index has this index in the table.
  refine List.ext_getElem hlength fun k hk hk' => ?_
  have hindex : (t.positions.map t.index)[k]? = (List.range t.cells.size)[k]? :=
    congrArg (·[k]?) t.map_index_positions
  rw [List.getElem?_map, List.getElem?_eq_getElem hk, Option.map_some,
    List.getElem?_range (t.length_positions ▸ hk), Option.some.injEq] at hindex
  rw [List.length_map] at hk'
  obtain ⟨hrow, hcol, hslot, _⟩ := of_getElem?_slots (List.getElem?_eq_getElem hk')
  rw [List.getElem_map]
  refine index_inj (mem_positions.1 (List.getElem_mem hk)) ⟨hrows ▸ hrow, hcols ▸ hcol⟩ ?_
  rw [hindex, index, hcols]
  exact hslot.symm

/-- A table does not read if its formulas do not. -/
theorem Table.readFormulas_of_read_error (h : Table.read source before = (.error e, after)) :
    readFormulas (formulaTexts (slots source)) before = (.error e, after) := by
  unfold Table.read at h
  split at h
  · next e' store₁ hread =>
    cases h
    exact readFormulas_of_readCells_error hread
  · cases h

/-- The formulas of a table that reads are those of its source. -/
theorem Table.readFormulas_of_read_ok (h : Table.read source before = (.ok t, after)) :
    readFormulas (formulaTexts (slots source)) before = (.ok t.formulaRoots, after) := by
  unfold Table.read at h
  split at h
  · cases h
  · next cells store₁ hread =>
    cases h
    obtain ⟨added, hcells, hroots⟩ := readFormulas_of_readCells_ok hread
    obtain rfl : cells.toList = added := hcells
    rw [Table.formulaRoots_eq, Table.positions_eq rfl rfl]
    exact hroots

/-- A table that does not read fails at the first formula that does not read alone. -/
theorem Table.exists_of_read_error (h : Table.read source before = (.error e, after)) :
    ∃ earlier text later, formulaTexts (slots source) = earlier ++ (e.cell, text) :: later ∧
      (∀ found ∈ earlier, ∃ root, (Formula.read found.2 .empty).1 = .ok root) ∧
      (Formula.read text .empty).1 = .error e.cause := by
  obtain ⟨earlier, text, later, hformulas, hearlier, hfails⟩ :=
    exists_of_readFormulas_error (readFormulas_of_read_error h)
  exact ⟨earlier, text, later, hformulas, hearlier,
    Formula.fst_read_eq_error_iff.1 (congrArg Prod.fst hfails)⟩

/-- A table does not read exactly if the text of one of its formulas does not read alone. -/
theorem Table.exists_read_eq_error_iff (source : List Char) (before : Store) :
    (∃ e, (Table.read source before).1 = .error e) ↔
      ∃ found ∈ formulaTexts (slots source), ∃ cause,
        (Formula.read found.2 .empty).1 = .error cause := by
  constructor
  · intro ⟨e, he⟩
    obtain ⟨earlier, text, later, hformulas, _, hfails⟩ := exists_of_read_error (Prod.ext he rfl)
    have hmem : (e.cell, text) ∈ formulaTexts (slots source) := by simp [hformulas]
    exact ⟨_, hmem, e.cause, hfails⟩
  · intro ⟨found, hfound, cause, hcause⟩
    cases hresult : (Table.read source before).1 with
    | error e => exact ⟨e, rfl⟩
    | ok t =>
        obtain ⟨hall, _, _⟩ := of_readFormulas_ok (readFormulas_of_read_ok (Prod.ext hresult rfl))
        obtain ⟨root, hroot⟩ := hall found hfound
        cases hcause.symm.trans hroot

/-- A table reads exactly if the texts of all its formulas read alone. -/
theorem Table.exists_read_eq_ok_iff (source : List Char) (before : Store) :
    (∃ t, (Table.read source before).1 = .ok t) ↔
      ∀ found ∈ formulaTexts (slots source), ∃ root,
        (Formula.read found.2 .empty).1 = .ok root := by
  have hfails := Table.exists_read_eq_error_iff source before
  constructor
  · intro ⟨t, ht⟩ found hfound
    cases hread : (Formula.read found.2 .empty).1 with
    | ok root => exact ⟨root, rfl⟩
    | error cause =>
        obtain ⟨e, he⟩ := hfails.2 ⟨found, hfound, cause, hread⟩
        cases ht.symm.trans he
  · intro hall
    cases hread : (Table.read source before).1 with
    | ok t => exact ⟨t, rfl⟩
    | error e =>
        obtain ⟨found, hfound, cause, hcause⟩ := hfails.1 ⟨e, hread⟩
        obtain ⟨root, hroot⟩ := hall found hfound
        cases hcause.symm.trans hroot

/-- What is under the root of a formula belongs to the formula. -/
theorem Table.owns_of_under (h : Table.read source before = (.ok t, after))
    (hsize : after.size ≤ 2 ^ 32) {p : Position} {f : FormulaCell}
    (hp : t.get? p = some (.formula f)) {i : Nat} (hi : after.Under f.root.index i) :
    t.Owns after p (.ofIndex i) := by
  obtain ⟨piece, first, last, _, hread, hext⟩ := exists_read_of_get? h hp
  have hlast := Nat.le_trans hext.size_le hsize
  have hin := (Formula.under_iff_of_read hread hext hlast).1 hi
  obtain ⟨tree, ids, hlayout, hoccupies⟩ := Formula.exists_layout_of_read hread hlast
  have hmem : i ∈ ids.map NodeId.index :=
    hoccupies.mem_iff.2 (List.mem_range'_1.2 ⟨hin.1, by omega⟩)
  obtain ⟨id, hid, rfl⟩ := List.mem_map.1 hmem
  rw [NodeId.ofIndex_index]
  exact ⟨f, tree, ids, hp, hlayout.extends hext, hid⟩

/-- While there are ids left, a table fails to read exactly if the text of one of its formulas fails
to read alone. Then the error is that of the first such formula, and behind the nodes that were
there stand those of the formulas before it and the operands that were taken of it. Otherwise there
are the nodes of all formulas, in the order of the cells, one block for each: the block is what is
under the root, which is its last node, and no node is under the roots of two cells. -/
theorem Table.read_formulas (hroom : before.size + byteLength source < 2 ^ 32 - 1) :
    let formulas := formulaTexts (slots source)
    (∀ p text, (p, text) ∈ formulas ↔
      ∃ piece, pieceAt? source p = some piece ∧ formulaText? piece = some text) ∧
    (formulas.Pairwise fun a b => a.1.Before b.1) ∧
    ((∃ e, (Table.read source before).1 = .error e) ↔
      ∃ found ∈ formulas, ∃ cause, (Formula.read found.2 .empty).1 = .error cause) ∧
    (∀ i < before.size, (Table.read source before).2.nodes[i]? = before.nodes[i]?) ∧
    (∀ e after, Table.read source before = (.error e, after) →
      ∃ earlier text later operands, formulas = earlier ++ (e.cell, text) :: later ∧
        (∀ found ∈ earlier, ∃ root, (Formula.read found.2 .empty).1 = .ok root) ∧
        (Formula.read text .empty).1 = .error e.cause ∧
        FailsAfter (.ofRange (byteLength text) (byteLength text)) (lexemes text) operands e.cause ∧
        after = (before.withFormulas earlier).append (operands.map Operand.node)) ∧
    ∀ t after, Table.read source before = (.ok t, after) →
      after = before.withFormulas formulas ∧
      t.formulaRoots.map Prod.fst = formulas.map Prod.fst ∧
      after.Blocks before.size (t.formulaRoots.map Prod.snd) ∧
      ∀ p q f g i, t.get? p = some (.formula f) → t.get? q = some (.formula g) →
        after.Under f.root.index i → after.Under g.root.index i → p = q := by
  intro formulas
  have hgrown := size_readTable_le source before
  refine ⟨fun p text => mem_formulaTexts, pairwise_formulaTexts source,
    Table.exists_read_eq_error_iff source before, fun i hi => ?_, fun e after hread => ?_,
    fun t after hread => ?_⟩
  · have hold : before.nodes[i]? = some before.nodes[i] := Array.getElem?_eq_getElem hi
    rw [(extends_readTable source before).getElem?_eq hold, hold]
  · obtain ⟨earlier, text, later, hformulas, hearlier, hfails⟩ :=
      exists_of_readFormulas_error (readFormulas_of_read_error hread)
    obtain ⟨operands, hoperands, hafter⟩ := Formula.exists_operands_of_read hfails
    exact ⟨earlier, text, later, operands, hformulas, hearlier,
      Formula.fst_read_eq_error_iff.1 (congrArg Prod.fst hfails), hoperands, hafter⟩
  · rw [hread] at hgrown
    have hsize : after.size ≤ 2 ^ 32 := Nat.le_trans hgrown (by omega)
    have hformulas := readFormulas_of_read_ok hread
    obtain ⟨_, hafter, hplaces⟩ := of_readFormulas_ok hformulas
    refine ⟨hafter, hplaces, blocks_of_readFormulas hformulas hsize,
      fun p q f g i hp hq hpi hqi => ?_⟩
    exact (separate_of_read hread hsize).unique (owns_of_under hread hsize hp hpi)
      (owns_of_under hread hsize hq hqi)

/-- Behind a node, the second of three formulas fails after it has taken an operand. -/
theorem Table.read_formulas_of_failure :
    let source := "=1+2|x\n=A0+|=B".toList
    let before := (Store.empty.push (.number 9)).2
    before.size + byteLength source < 2 ^ 32 - 1 ∧
    ∃ e after, Table.read source before = (.error e, after) ∧ e.cell = ⟨1, 0⟩ ∧
      (Formula.read "A0+".toList .empty).1 = .error e.cause ∧
      (before.withFormulas [(⟨0, 0⟩, "1+2".toList)]).Extends after ∧
      after.nodes[0]? = some (.number 9) := by
  intro source before
  have hroom : before.size + byteLength source < 2 ^ 32 - 1 := by decide +kernel
  have htexts : formulaTexts (slots source) =
      [(⟨0, 0⟩, "1+2".toList), (⟨1, 0⟩, "A0+".toList), (⟨1, 1⟩, "B".toList)] := by decide +kernel
  have hfirst : (Formula.read "1+2".toList .empty).1 = .ok (.ofIndex 2) := by decide +kernel
  have hsecond : (Formula.read "A0+".toList .empty).1 = .error (.unexpectedEnd (.ofRange 3 3)) := by
    decide +kernel
  obtain ⟨_, _, hiff, hkept, hfails, _⟩ := read_formulas hroom
  obtain ⟨e, he⟩ := hiff.2 ⟨(⟨1, 0⟩, "A0+".toList), by rw [htexts]; simp, _, hsecond⟩
  obtain ⟨earlier, text, later, operands, hformulas, hearlier, hcause, _, hafter⟩ :=
    hfails e _ (Prod.ext he rfl)
  rw [htexts] at hformulas
  -- The first formula reads alone and the second does not, so the second is where reading ends.
  rcases earlier with _ | ⟨found, _ | ⟨found', earlier⟩⟩
  · obtain ⟨_, rfl⟩ := Prod.mk.inj (List.cons.inj hformulas).1
    cases hfirst.symm.trans hcause
  · obtain ⟨rfl, hrest⟩ := List.cons.inj hformulas
    obtain ⟨hcell, rfl⟩ := Prod.mk.inj (List.cons.inj hrest).1
    have hhead : before.nodes[0]? = some (.number 9) := rfl
    refine ⟨hroom, e, (read source before).2, Prod.ext he rfl, hcell.symm, hcause, ?_,
      (hkept 0 (by decide)).trans hhead⟩
    exact ⟨_, congrArg (·.nodes.toList) hafter.symm⟩
  · obtain ⟨rfl, hrest⟩ := List.cons.inj hformulas
    obtain ⟨rfl, _⟩ := List.cons.inj hrest
    obtain ⟨root, hroot⟩ := hearlier _ (List.mem_cons_of_mem _ List.mem_cons_self)
    cases hsecond.symm.trans hroot

end Tables

end PipeSheet
