import Mathlib.Data.List.Perm.Basic
import Mathlib.Data.List.Nodup
import PipeSheet.Proofs.Formula.Sum
/-!
# PipeSheet.Proofs.Formula.Layout

**Which nodes a formula consists of.**

A tree says what a formula means but not where its nodes lie, so it cannot tell one node that is
visited twice from two nodes that look the same. A `Layout` can: it lists the ids of a formula in
the order in which they are visited.

Reading a formula gives it exactly the nodes that it adds, each of them once
(`exists_layout_of_read`). The reason is that at all times the ids at hand are the ones added so
far, in some order (`Store.Occupies`).

* `Store.Layout`: a formula with its tree and its ids;
* `Store.Layout.unique`, `Store.Layout.tree?_eq`: an id has one layout, and it is that of its tree;
* `exists_layout_of_read`: the layout of a formula that reads.
-/

namespace PipeSheet.Formula

namespace Store

/-! ### Layouts -/

/-- The formula under an id is a tree, and these are its nodes in the order in which they are
visited. -/
inductive Layout (s : Store) : NodeId → Tree → List NodeId → Prop
  | number {id : NodeId} {v : Float} : s.get? id = some (.number v) → Layout s id (.number v) [id]
  | ref {id : NodeId} {p : Position} : s.get? id = some (.ref p) → Layout s id (.ref p) [id]
  | plus {id lhs rhs : NodeId} {l r : Tree} {ls rs : List NodeId} :
      s.get? id = some (.plus lhs rhs) → lhs.index < id.index → rhs.index < id.index →
      Layout s lhs l ls → Layout s rhs r rs → Layout s id (.plus l r) (id :: (ls ++ rs))

variable {s s' : Store} {id : NodeId} {tree tree' : Tree} {ids ids' : List NodeId}

namespace Layout

theorem index_lt_size (h : s.Layout id tree ids) : id.index < s.size := by
  cases h with
  | number h => exact index_lt_of_get? h
  | ref h => exact index_lt_of_get? h
  | plus h => exact index_lt_of_get? h

/-- No node of a formula stands behind its root. -/
theorem index_le (h : s.Layout id tree ids) : ∀ i ∈ ids, i.index ≤ id.index := by
  induction h with
  | number h => simp
  | ref h => simp
  | plus h hl hr _ _ ihl ihr =>
      intro i hi
      rcases List.mem_cons.1 hi with rfl | hi
      · exact Nat.le_refl _
      · rcases List.mem_append.1 hi with hi | hi
        · exact Nat.le_trans (ihl i hi) (Nat.le_of_lt hl)
        · exact Nat.le_trans (ihr i hi) (Nat.le_of_lt hr)

theorem unique (h : s.Layout id tree ids) (h' : s.Layout id tree' ids') :
    tree = tree' ∧ ids = ids' := by
  induction h generalizing tree' ids' with
  | number h =>
      cases h' with
      | number h' => cases h.symm.trans h'; exact ⟨rfl, rfl⟩
      | ref h' => cases h.symm.trans h'
      | plus h' => cases h.symm.trans h'
  | ref h =>
      cases h' with
      | number h' => cases h.symm.trans h'
      | ref h' => cases h.symm.trans h'; exact ⟨rfl, rfl⟩
      | plus h' => cases h.symm.trans h'
  | plus h _ _ _ _ ihl ihr =>
      cases h' with
      | number h' => cases h.symm.trans h'
      | ref h' => cases h.symm.trans h'
      | plus h' _ _ hl' hr' =>
          cases h.symm.trans h'
          obtain ⟨rfl, rfl⟩ := ihl hl'
          obtain ⟨rfl, rfl⟩ := ihr hr'
          exact ⟨rfl, rfl⟩

/-- A formula has as many nodes as its tree. -/
theorem length_eq (h : s.Layout id tree ids) : ids.length = tree.size := by
  induction h with
  | number h => rfl
  | ref h => rfl
  | plus h _ _ _ _ ihl ihr => rw [List.length_cons, List.length_append, ihl, ihr, Tree.size]

theorem tree?_eq (h : s.Layout id tree ids) : s.tree? id = some tree := by
  induction h with
  | number h =>
      rw [get?] at h
      rw [tree?, treeAt?, h]
  | ref h =>
      rw [get?] at h
      rw [tree?, treeAt?, h]
  | plus h hl hr _ _ ihl ihr =>
      rw [get?] at h
      rw [tree?] at ihl ihr
      rw [tree?, treeAt?, h]
      dsimp only
      rw [dif_pos ⟨hl, hr⟩, ihl, ihr]

end Layout

theorem Layout.extends (h : s.Layout id tree ids) (hext : s.Extends s') :
    s'.Layout id tree ids := by
  induction h with
  | number h => exact .number (hext.getElem?_eq h)
  | ref h => exact .ref (hext.getElem?_eq h)
  | plus h hl hr _ _ ihl ihr => exact .plus (hext.getElem?_eq h) hl hr ihl ihr

/-! ### The ids that were added -/

/-- The ids are those of the nodes added since the store had `first` nodes, each of them once. -/
def Occupies (s : Store) (first : Nat) (ids : List NodeId) : Prop :=
  (ids.map NodeId.index).Perm (List.range' first (s.size - first))

variable {first : Nat}

theorem occupies_nil (s : Store) : s.Occupies s.size [] := by
  simp [Occupies]

namespace Occupies

theorem push (h : s.Occupies first ids) (hfirst : first ≤ s.size) (hsize : s.size < 2 ^ 32)
    (node : Node) : (s.push node).2.Occupies first ((s.push node).1 :: ids) := by
  have hcount : s.size + 1 - first = s.size - first + 1 := by omega
  have hlast : first + 1 * (s.size - first) = s.size := by omega
  rw [Occupies, List.map_cons, fst_push, NodeId.index_ofIndex hsize, size_push, hcount,
    List.range'_concat, hlast]
  exact (h.cons _).trans (List.perm_append_singleton _ _).symm

theorem perm (h : s.Occupies first ids) (hperm : ids.Perm ids') : s.Occupies first ids' :=
  (hperm.symm.map _).trans h

theorem nodup (h : s.Occupies first ids) : ids.Nodup :=
  List.Nodup.of_map _ (h.nodup_iff.2 List.nodup_range')

theorem le_index (h : s.Occupies first ids) : ∀ id ∈ ids, first ≤ id.index :=
  fun _ hid => (List.mem_range'_1.1 (h.mem_iff.1 (List.mem_map_of_mem hid))).1

end Occupies

end Store

open Store (Extends Layout)

/-! ### The layout of a formula that reads -/

variable {store : Store} {first : Nat} {pending : List NodeId}

/-- Every id is that of an operand. -/
def Leaves (store : Store) (ids : List NodeId) : Prop :=
  ∀ id ∈ ids, ∃ o : Operand, store.Layout id o.tree [id]

theorem Leaves.extends {store' : Store} (h : Leaves store pending) (hext : store.Extends store') :
    Leaves store' pending := by
  intro id hid
  obtain ⟨o, ho⟩ := h id hid
  exact ⟨o, ho.extends hext⟩

theorem layout_push_operand (hsize : store.size < 2 ^ 32) (o : Operand) :
    (store.push o.node).2.Layout (store.push o.node).1 o.tree [(store.push o.node).1] := by
  have hget := Store.get?_push_self hsize o.node
  cases o with
  | number v => exact .number hget
  | ref p => exact .ref hget

theorem layout_push_plus {lhs rhs : NodeId} {l r : Tree} {ls rs : List NodeId}
    (hsize : store.size < 2 ^ 32) (hl : store.Layout lhs l ls) (hr : store.Layout rhs r rs) :
    (store.push (.plus lhs rhs)).2.Layout (store.push (.plus lhs rhs)).1 (.plus l r)
      ((store.push (.plus lhs rhs)).1 :: (ls ++ rs)) := by
  have hext := Extends.push store (.plus lhs rhs)
  have hindex : (store.push (.plus lhs rhs)).1.index = store.size := by
    rw [Store.fst_push, NodeId.index_ofIndex hsize]
  refine .plus (Store.get?_push_self hsize _) ?_ ?_ (hl.extends hext) (hr.extends hext)
  · exact hindex ▸ hl.index_lt_size
  · exact hindex ▸ hr.index_lt_size

/-- The operands are laid out one by one. -/
theorem occupies_pushOperands (operands : List Operand) (hleaves : Leaves store pending)
    (h : store.Occupies first pending) (hfirst : first ≤ store.size)
    (hsize : store.size + operands.length ≤ 2 ^ 32) :
    Leaves (pushOperands pending operands store).2 (pushOperands pending operands store).1 ∧
      (pushOperands pending operands store).2.Occupies first
        (pushOperands pending operands store).1 := by
  induction operands generalizing pending store with
  | nil => exact ⟨hleaves, h⟩
  | cons o operands ih =>
      rw [List.length_cons] at hsize
      have hroom : store.size < 2 ^ 32 := by omega
      refine ih ?_ (h.push hfirst hroom o.node) ?_ ?_
      · intro id hid
        rcases List.mem_cons.1 hid with rfl | hid
        · exact ⟨o, layout_push_operand hroom o⟩
        · exact hleaves.extends (.push store o.node) id hid
      · rw [Store.size_push]
        omega
      · rw [Store.size_push]
        omega

/-- Each sum has its own node, the node of the operand on its left, and all nodes of the sum that
was added before it. -/
theorem exists_layout_addSums {last : NodeId} {tree : Tree} {ids : List NodeId}
    (hlast : store.Layout last tree ids) (hleaves : Leaves store pending)
    (h : store.Occupies first (ids ++ pending)) (hfirst : first ≤ store.size)
    (hsize : store.size + pending.length ≤ 2 ^ 32) :
    ∃ tree' ids', (addSums last pending store).2.Layout (addSums last pending store).1 tree' ids' ∧
      (addSums last pending store).2.Occupies first ids' := by
  induction pending generalizing last store tree ids with
  | nil =>
      rw [List.append_nil] at h
      exact ⟨tree, ids, hlast, h⟩
  | cons id pending ih =>
      rw [List.length_cons] at hsize
      have hroom : store.size < 2 ^ 32 := by omega
      obtain ⟨o, ho⟩ := hleaves id List.mem_cons_self
      have hrest : Leaves store pending := fun i hi => hleaves i (List.mem_cons_of_mem _ hi)
      have hpush := h.push hfirst hroom (.plus id last)
      rw [addSums_cons]
      refine ih (layout_push_plus hroom ho hlast) (hrest.extends (.push store _))
        (hpush.perm ?_) ?_ ?_
      · rw [List.singleton_append, List.cons_append, List.cons_append]
        exact List.perm_middle.cons _
      · rw [Store.size_push]
        omega
      · rw [Store.size_push]
        omega

theorem exists_layout_build {ids : List NodeId} (hne : ids ≠ []) (hleaves : Leaves store ids)
    (h : store.Occupies first ids) (hfirst : first ≤ store.size)
    (hsize : store.size + (ids.length - 1) ≤ 2 ^ 32) :
    ∃ tree ids', (build ids store).2.Layout (build ids store).1 tree ids' ∧
      (build ids store).2.Occupies first ids' := by
  cases ids with
  | nil => exact absurd rfl hne
  | cons last pending =>
      obtain ⟨o, ho⟩ := hleaves last List.mem_cons_self
      exact exists_layout_addSums ho
        (fun i hi => hleaves i (List.mem_cons_of_mem _ hi)) h hfirst hsize

/-- A formula that reads consists of the nodes that were added for it, each of them once. -/
theorem exists_layout_of_read {source : List Char} {store' : Store} {root : NodeId}
    (h : read source store = (.ok root, store')) (hsize : store'.size ≤ 2 ^ 32) :
    ∃ tree ids, store'.Layout root tree ids ∧ store'.Occupies store.size ids := by
  rw [read_eq, finish] at h
  cases hnone : (operandsOf source).2 with
  | some e =>
      rw [hnone] at h
      cases h
  | none =>
      have hne : (operandsOf source).1 ≠ [] := scan_ne_nil hnone
      have hpushed := size_pushOperands [] (operandsOf source).1 store
      have hlength := length_pushOperands [] (operandsOf source).1 store
      rw [hnone] at h
      cases h
      rw [size_build] at hsize
      rw [List.length_nil, Nat.add_zero] at hlength
      have hleaves : Leaves store [] := fun id hid => absurd hid List.not_mem_nil
      obtain ⟨hleaves, hoccupies⟩ := occupies_pushOperands (operandsOf source).1 hleaves
        (Store.occupies_nil store) (Nat.le_refl _) (by omega)
      refine exists_layout_build ?_ hleaves hoccupies (by omega) hsize
      rw [← List.length_pos_iff, hlength]
      exact List.length_pos_iff.2 hne

end PipeSheet.Formula
