import PipeSheet.Proofs.Table.Layout
/-!
# PipeSheet.Proofs.Table.Weight

**What the store of a table weighs, the formulas of the table weigh together.**

Give every sum one weight and every number and reference a weight of its own. Then a formula that is
read adds to the store exactly what its tree weighs, and a cell that is no formula adds nothing. So
reading leaves no node that belongs to no formula, and none that belongs to two: whatever is counted
over the store, nodes of any kind, is counted over the formulas as well.

* `Weights`: what the nodes weigh;
* `Tree.weight`, `Store.weight`, `Table.weight`: what trees, stores and the formulas of a table
  weigh;
* `Table.weight_of_read`: the law.
-/

namespace PipeSheet

open Formula (FormulaError Node NodeId Operand Store Tree)
open Text (Piece)

/-! ### Weights -/

/-- What a sum weighs, and what a number or a reference weighs. -/
structure Weights where
  sum : Nat
  operand : Operand → Nat

variable {w : Weights}

namespace Formula

def Node.weight (w : Weights) : Node → Nat
  | .number v => w.operand (.number v)
  | .ref q => w.operand (.ref q)
  | .plus _ _ => w.sum

@[simp] theorem Operand.weight_node (operand : Operand) :
    operand.node.weight w = w.operand operand := by
  cases operand <;> rfl

def Tree.weight (w : Weights) : Tree → Nat
  | .number v => w.operand (.number v)
  | .ref q => w.operand (.ref q)
  | .plus lhs rhs => lhs.weight w + rhs.weight w + w.sum

@[simp] theorem Operand.weight_tree (operand : Operand) :
    operand.tree.weight w = w.operand operand := by
  cases operand <;> rfl

/-- A sum of operands has one node of a sum between any two of them. -/
theorem Tree.weight_sum {operands : List Operand} (h : operands ≠ []) :
    (Tree.sum operands).weight w =
      (operands.map w.operand).sum + (operands.length - 1) * w.sum := by
  induction operands with
  | nil => exact absurd rfl h
  | cons operand rest ih =>
      cases rest with
      | nil => simp [Tree.sum]
      | cons next rest =>
          rw [Tree.sum_cons operand (by simp), Tree.weight, Operand.weight_tree, ih (by simp)]
          simp only [List.map_cons, List.sum_cons, List.length_cons, Nat.add_sub_cancel,
            Nat.succ_mul]
          omega

namespace Store

def weight (w : Weights) (s : Store) : Nat :=
  (s.nodes.toList.map (Node.weight w)).sum

@[simp] theorem weight_empty : Store.empty.weight w = 0 := rfl

@[simp] theorem weight_push (s : Store) (node : Node) :
    (s.push node).2.weight w = s.weight w + node.weight w := by
  simp [weight]

end Store

/-! ### Formulas -/

theorem weight_addSums (last : NodeId) (pending : List NodeId) (store : Store) :
    (addSums last pending store).2.weight w = store.weight w + pending.length * w.sum := by
  induction pending generalizing last store with
  | nil => simp [addSums]
  | cons id pending ih =>
      rw [addSums_cons, ih, Store.weight_push, Node.weight, List.length_cons, Nat.succ_mul]
      omega

theorem weight_build (ids : List NodeId) (store : Store) :
    (build ids store).2.weight w = store.weight w + (ids.length - 1) * w.sum := by
  cases ids with
  | nil => simp [build]
  | cons last pending => exact weight_addSums last pending store

theorem weight_pushOperands (pending : List NodeId) (operands : List Operand) (store : Store) :
    (pushOperands pending operands store).2.weight w =
      store.weight w + (operands.map w.operand).sum := by
  induction operands generalizing pending store with
  | nil => rfl
  | cons operand rest ih =>
      rw [pushOperands, ih, Store.weight_push, Operand.weight_node, List.map_cons, List.sum_cons]
      omega

/-- A formula that is read adds to the store what its tree weighs. -/
theorem weight_of_read {source : List Char} {store store' : Store} {root : NodeId}
    (h : read source store = (.ok root, store')) (hsize : store'.size ≤ 2 ^ 32) :
    ∃ tree, store'.tree? root = some tree ∧
      store'.weight w = store.weight w + tree.weight w := by
  obtain ⟨hcomplete, hne, htree⟩ := read_spec h hsize
  refine ⟨_, htree, ?_⟩
  rw [read_eq, finish, hcomplete] at h
  cases h
  rw [weight_build, weight_pushOperands, length_pushOperands, Tree.weight_sum hne]
  simp only [List.length_nil, Nat.add_zero]
  omega

end Formula

/-! ### Tables -/

/-- What the formula in a cell weighs. -/
def Cell.weight (store : Store) (w : Weights) : Cell → Nat
  | .formula f => (store.tree? f.root).elim 0 (Tree.weight w)
  | _ => 0

theorem Cell.weight_of_tree {store : Store} {f : FormulaCell} {tree : Tree}
    (h : store.tree? f.root = some tree) : (Cell.formula f).weight store w = tree.weight w := by
  rw [weight, h]
  rfl

/-- What all formulas of a table weigh. -/
def Table.weight (store : Store) (w : Weights) (t : Table) : Nat :=
  (t.cells.toList.map (Cell.weight store w)).sum

variable {store store' : Store} {cell : Cell}

/-- A cell that is read adds to the store what its formula weighs, which a later store does not
change. -/
theorem weight_of_readCell {later : Store} {piece : Piece}
    (h : Cell.read piece store = (.ok cell, store')) (hsize : store'.size ≤ 2 ^ 32)
    (hlater : store'.Extends later) :
    store'.weight w = store.weight w + cell.weight later w := by
  rcases readCell_cases h with ⟨root, rfl, _, hread⟩ | ⟨hother, _, rfl⟩
  · obtain ⟨tree, htree, hweight⟩ := Formula.weight_of_read (w := w) hread hsize
    rw [Cell.weight_of_tree (hlater.tree?_eq htree), hweight]
  · cases cell with
    | formula f => exact absurd rfl (hother f)
    | _ => rfl

theorem weight_of_readCells {before after : Array Cell} {slots : List (Position × Option Piece)}
    (h : readCells before slots store = (.ok after, store')) (hsize : store'.size ≤ 2 ^ 32) :
    ∃ added, after.toList = before.toList ++ added ∧
      store'.weight w = store.weight w + (added.map (Cell.weight store' w)).sum := by
  fun_induction readCells before slots store with
  | case1 before store =>
      cases h
      exact ⟨[], by simp, rfl⟩
  | case2 before p rest store ih =>
      obtain ⟨added, hcells, hweight⟩ := ih h
      exact ⟨.empty :: added, by simpa using hcells, by simpa [Cell.weight] using hweight⟩
  | case3 before p piece rest store cell store₁ hcell ih =>
      obtain ⟨added, hcells, hweight⟩ := ih h
      have hext := extends_readCells (before.push cell) rest store₁
      rw [h] at hext
      have hfirst := weight_of_readCell (w := w) hcell (Nat.le_trans hext.size_le hsize) hext
      refine ⟨cell :: added, by simpa using hcells, ?_⟩
      rw [hweight, hfirst, List.map_cons, List.sum_cons, Nat.add_assoc]
  | case4 before p piece rest store cause store₁ hcell => cases h

/-- Reading a table adds to the store what the formulas of the table weigh. -/
theorem Table.weight_of_read {source : List Char} {before : Store} {t : Table}
    (h : Table.read source before = (.ok t, store)) (hsize : store.size ≤ 2 ^ 32) :
    store.weight w = before.weight w + t.weight store w := by
  unfold Table.read at h
  split at h
  · cases h
  · next cells store₁ hread =>
    cases h
    obtain ⟨added, hcells, hweight⟩ := weight_of_readCells (w := w) hread hsize
    rw [hweight, Table.weight, hcells]
    rfl

end PipeSheet
