import PipeSheet.Proofs.Formula.Layout
import PipeSheet.Proofs.Table.Reading
/-!
# PipeSheet.Proofs.Table.Layout

**Every node of a table's formulas belongs to one formula.**

A formula consists of nodes that were added for it, and the formulas read before it consist of older
nodes. So no two formulas of a table share a node, although all of them lie in one store.

* `LaidOut`: the formulas among some cells share no nodes, and visit none of theirs twice;
* `Table.Owns`, `Table.Separate`: the formula that a node belongs to, and that there is only one;
* `Table.separate_of_read`: the law.
-/

namespace PipeSheet

open Formula (FormulaError NodeId Store Tree)
open Formula.Store (Extends)
open Text (Piece)

variable {store store' : Store} {cell : Cell} {cells : List Cell}

/-! ### Cells that share no nodes -/

/-- The cell is a formula with these nodes. -/
inductive Cell.Consists (store : Store) : Cell → List NodeId → Prop
  | formula {f : FormulaCell} {tree : Tree} {ids : List NodeId} :
      store.Layout f.root tree ids → Consists store (.formula f) ids

/-- The formulas among some cells share no nodes, and each has every node of it once. -/
structure LaidOut (store : Store) (cells : List Cell) : Prop where
  exists_layout : ∀ {f : FormulaCell}, .formula f ∈ cells →
    ∃ tree ids, store.Layout f.root tree ids ∧ ids.Nodup
  disjoint : cells.Pairwise fun c d => ∀ xs ys, c.Consists store xs → d.Consists store ys →
    xs.Disjoint ys

theorem laidOut_nil (store : Store) : LaidOut store [] :=
  ⟨fun h => absurd h List.not_mem_nil, .nil⟩

namespace LaidOut

/-- Of formulas that are laid out already, a later store says the same. -/
theorem consists_of_extends (h : LaidOut store cells) (hext : store.Extends store')
    (hmem : cell ∈ cells) {ids : List NodeId} (hids : cell.Consists store' ids) :
    cell.Consists store ids := by
  cases hids with
  | formula hlayout =>
      obtain ⟨tree, ids', hlayout', _⟩ := h.exists_layout hmem
      obtain ⟨rfl, rfl⟩ := hlayout.unique (hlayout'.extends hext)
      exact .formula hlayout'

theorem grow (h : LaidOut store cells) (hext : store.Extends store') : LaidOut store' cells := by
  refine ⟨fun hf => ?_, ?_⟩
  · obtain ⟨tree, ids, hlayout, hnodup⟩ := h.exists_layout hf
    exact ⟨tree, ids, hlayout.extends hext, hnodup⟩
  · refine h.disjoint.imp_of_mem fun hc hd hdisjoint xs ys hxs hys => ?_
    exact hdisjoint xs ys (h.consists_of_extends hext hc hxs) (h.consists_of_extends hext hd hys)

theorem append_other (h : LaidOut store cells) (hcell : ∀ f, cell ≠ .formula f) :
    LaidOut store (cells ++ [cell]) := by
  refine ⟨fun hf => ?_, List.pairwise_append.2 ⟨h.disjoint, List.pairwise_singleton _ _, ?_⟩⟩
  · rcases List.mem_append.1 hf with hf | hf
    · exact h.exists_layout hf
    · exact absurd (List.mem_singleton.1 hf).symm (hcell _)
  · intro c _ d hd xs ys _ hys
    rw [List.mem_singleton.1 hd] at hys
    cases hys with
    | formula _ => exact absurd rfl (hcell _)

/-- A formula whose nodes are new shares none with those that are there. -/
theorem append_formula (h : LaidOut store cells) (hext : store.Extends store') {f : FormulaCell}
    {tree : Tree} {ids : List NodeId} (hlayout : store'.Layout f.root tree ids)
    (hids : store'.Occupies store.size ids) : LaidOut store' (cells ++ [.formula f]) := by
  have hgrow := h.grow hext
  refine ⟨fun hf => ?_, List.pairwise_append.2 ⟨hgrow.disjoint, List.pairwise_singleton _ _, ?_⟩⟩
  · rcases List.mem_append.1 hf with hf | hf
    · exact hgrow.exists_layout hf
    · cases List.mem_singleton.1 hf
      exact ⟨tree, ids, hlayout, hids.nodup⟩
  · intro c hc d hd xs ys hxs hys id hidx hidy
    rw [List.mem_singleton.1 hd] at hys
    cases hys with
    | formula hlayout' =>
        obtain ⟨_, rfl⟩ := hlayout.unique hlayout'
        cases h.consists_of_extends hext hc hxs with
        | formula hold =>
            -- The old formula lies before the size that the store had, the new one behind it.
            have hnew := hids.le_index id hidy
            have hle := hold.index_le id hidx
            have hlt := hold.index_lt_size
            omega

end LaidOut

/-! ### The cells of a table -/

/-- The cell of a piece that is marked is a formula, which was read, and that of another piece
leaves the store as it is. -/
theorem readCell_cases {piece : Piece} (h : Cell.read piece store = (.ok cell, store')) :
    (∃ root, cell = .formula { root } ∧ (Text.trim piece.text).head? = some formulaMark ∧
      Formula.read (Text.trim piece.text).tail store = (.ok root, store')) ∨
    (∀ f, cell ≠ .formula f) ∧ (Text.trim piece.text).head? ≠ some formulaMark ∧
      store' = store := by
  unfold Cell.read at h
  dsimp only at h
  split at h
  · next hmark =>
    split at h
    · next root store₁ hread =>
      cases h
      exact .inl ⟨root, rfl, hmark, hread⟩
    · cases h
  · next hmark =>
    right
    split at h
    · cases h
      exact ⟨by simp, hmark, rfl⟩
    · cases h
      exact ⟨by simp, hmark, rfl⟩

theorem laidOut_of_readCells {before after : Array Cell} {slots : List (Position × Option Piece)}
    (h : readCells before slots store = (.ok after, store')) (hsize : store'.size ≤ 2 ^ 32)
    (hbefore : LaidOut store before.toList) : LaidOut store' after.toList := by
  fun_induction readCells before slots store with
  | case1 before store =>
      cases h
      exact hbefore
  | case2 before p rest store ih =>
      refine ih h ?_
      rw [Array.toList_push]
      exact hbefore.append_other (by simp)
  | case3 before p piece rest store cell store₁ hcell ih =>
      refine ih h ?_
      have hrest := extends_readCells (before.push cell) rest store₁
      rw [h] at hrest
      have hext := extends_readCell piece store
      rw [hcell] at hext
      rw [Array.toList_push]
      rcases readCell_cases hcell with ⟨root, rfl, _, hread⟩ | ⟨hother, _, rfl⟩
      · obtain ⟨tree, ids, hlayout, hids⟩ :=
          Formula.exists_layout_of_read hread (Nat.le_trans hrest.size_le hsize)
        exact hbefore.append_formula hext hlayout hids
      · exact hbefore.append_other hother
  | case4 before p piece rest store cause store₁ hcell => cases h

/-- The node belongs to the formula at a position. -/
def Table.Owns (store : Store) (t : Table) (p : Position) (id : NodeId) : Prop :=
  ∃ f tree ids, t.get? p = some (.formula f) ∧ store.Layout f.root tree ids ∧ id ∈ ids

/-- The formulas of a table share no nodes, and each has every node of it once. -/
structure Table.Separate (store : Store) (t : Table) : Prop where
  exists_layout : ∀ {p : Position} {f : FormulaCell}, t.get? p = some (.formula f) →
    ∃ tree ids, store.Layout f.root tree ids ∧ ids.Nodup
  unique : ∀ {p q : Position} {id : NodeId}, t.Owns store p id → t.Owns store q id → p = q

theorem Table.mem_of_get? {t : Table} {p : Position} (h : t.get? p = some cell) :
    cell ∈ t.cells.toList := by
  rw [get?_of_contains (contains_of_get? h)] at h
  exact List.mem_of_getElem? (Array.getElem?_toList ▸ h)

theorem LaidOut.separate {t : Table} (h : LaidOut store t.cells.toList) : t.Separate store := by
  refine ⟨fun hp => h.exists_layout (Table.mem_of_get? hp), ?_⟩
  rintro p q id ⟨f, tree, xs, hp, hxs, hidx⟩ ⟨g, tree', ys, hq, hys, hidy⟩
  have hpin := Table.contains_of_get? hp
  have hqin := Table.contains_of_get? hq
  rw [Table.get?_of_contains hpin, ← Array.getElem?_toList] at hp
  rw [Table.get?_of_contains hqin, ← Array.getElem?_toList] at hq
  obtain ⟨hpi, hp⟩ := List.getElem?_eq_some_iff.1 hp
  obtain ⟨hqi, hq⟩ := List.getElem?_eq_some_iff.1 hq
  have hapart := List.pairwise_iff_getElem.1 h.disjoint
  rcases Nat.lt_trichotomy (t.index p) (t.index q) with hlt | heq | hlt
  · exact absurd hidy (hapart _ _ hpi hqi hlt xs ys (hp ▸ .formula hxs) (hq ▸ .formula hys) hidx)
  · exact Table.index_inj hpin hqin heq
  · exact absurd hidx (hapart _ _ hqi hpi hlt ys xs (hq ▸ .formula hys) (hp ▸ .formula hxs) hidy)

theorem Table.laidOut_of_read {source : List Char} {before : Store} {t : Table}
    (h : Table.read source before = (.ok t, store))
    (hsize : store.size ≤ 2 ^ 32) : LaidOut store t.cells.toList := by
  unfold Table.read at h
  split at h
  · cases h
  · next cells store₁ hread =>
    cases h
    exact laidOut_of_readCells hread hsize (laidOut_nil before)

/-- In a table that was just read, every node belongs to one formula. -/
theorem Table.separate_of_read {source : List Char} {before : Store} {t : Table}
    (h : Table.read source before = (.ok t, store))
    (hsize : store.size ≤ 2 ^ 32) : t.Separate store :=
  (laidOut_of_read h hsize).separate

end PipeSheet
