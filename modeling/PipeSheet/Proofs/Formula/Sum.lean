import Mathlib.Data.List.Forall2
import PipeSheet.Proofs.Formula.Scan
import PipeSheet.Proofs.Sheet.Basic
/-!
# PipeSheet.Proofs.Formula.Sum

**A formula that reads has, at its root, the sum of its operands, grouped to the right.**

Nodes are only ever added, so a tree that is in the store once stays there. The operands go in on
the way to the end of the formula and the sums on the way back, each over the sum that was built
last; `addSums_spec` is the induction on the way back and `pushOperands_spec` the one on the way
there.

Ids have 32 bits, so all of this needs a store that is not full at the end. A formula adds no more
nodes than it has characters (`size_read_le`).

* `Store.Extends`: one store is the beginning of the other;
* `Reads`, `read_spec`: the tree of a formula that reads.
-/

namespace PipeSheet.Formula

/-! ### Stores that grow -/

namespace Store

variable {s s' s'' : Store}

/-- The other store has the same nodes, and perhaps more after them. -/
def Extends (s s' : Store) : Prop :=
  s.nodes.toList <+: s'.nodes.toList

namespace Extends

theorem refl (s : Store) : s.Extends s := List.prefix_rfl

theorem trans (h : s.Extends s') (h' : s'.Extends s'') : s.Extends s'' := List.IsPrefix.trans h h'

theorem push (s : Store) (node : Node) : s.Extends (s.push node).2 :=
  ⟨[node], by simp⟩

theorem size_le (h : s.Extends s') : s.size ≤ s'.size := by
  simpa [Store.size] using List.IsPrefix.length_le h

theorem getElem?_eq (h : s.Extends s') {i : Nat} {node : Node} (hi : s.nodes[i]? = some node) :
    s'.nodes[i]? = some node := by
  obtain ⟨added, hadded⟩ := h
  rw [← Array.getElem?_toList] at hi ⊢
  have hlt : i < s.nodes.toList.length := (List.getElem?_eq_some_iff.1 hi).1
  rw [← hadded, List.getElem?_append_left hlt, hi]

theorem treeAt?_eq (h : s.Extends s') {i : Nat} {tree : Tree} (ht : treeAt? s.nodes i = some tree) :
    treeAt? s'.nodes i = some tree := by
  induction i using Nat.strongRecOn generalizing tree with
  | ind i ih =>
      rw [treeAt?] at ht ⊢
      cases hnode : s.nodes[i]? with
      | none => simp [hnode] at ht
      | some node =>
          rw [h.getElem?_eq hnode]
          rw [hnode] at ht
          cases node with
          | number value => exact ht
          | ref target => exact ht
          | plus lhs rhs =>
              dsimp only at ht ⊢
              split at ht
              · next hlt =>
                rw [dif_pos hlt]
                cases hl : treeAt? s.nodes lhs.index with
                | none => simp [hl] at ht
                | some l =>
                    cases hr : treeAt? s.nodes rhs.index with
                    | none => simp [hl, hr] at ht
                    | some r =>
                        rw [ih lhs.index hlt.1 hl, ih rhs.index hlt.2 hr]
                        simpa [hl, hr] using ht
              · cases ht

/-- What an id says stays the same. -/
theorem tree?_eq (h : s.Extends s') {id : NodeId} {tree : Tree} (ht : s.tree? id = some tree) :
    s'.tree? id = some tree :=
  h.treeAt?_eq ht

end Extends

/-- An id with a tree is in range. -/
theorem index_lt_of_tree? {id : NodeId} {tree : Tree} (h : s.tree? id = some tree) :
    id.index < s.size := by
  rw [tree?, treeAt?] at h
  cases hnode : s.nodes[id.index]? with
  | none => simp [hnode] at h
  | some node => exact index_lt_of_get? hnode

/-- The node of an id with a tree, and for a sum the trees of its two sides. -/
theorem get?_of_tree? {id : NodeId} {tree : Tree} (h : s.tree? id = some tree) :
    match tree with
    | .number v => s.get? id = some (.number v)
    | .ref q => s.get? id = some (.ref q)
    | .plus l r => ∃ lhs rhs, s.get? id = some (.plus lhs rhs) ∧
        s.tree? lhs = some l ∧ s.tree? rhs = some r := by
  rw [tree?, treeAt?] at h
  unfold get?
  cases hnode : s.nodes[id.index]? with
  | none => simp [hnode] at h
  | some node =>
      rw [hnode] at h
      cases node with
      | number v => cases h; rfl
      | ref q => cases h; rfl
      | plus lhs rhs =>
          dsimp only at h
          split at h
          · cases hl : treeAt? s.nodes lhs.index with
            | none => simp [hl] at h
            | some l =>
                cases hr : treeAt? s.nodes rhs.index with
                | none => simp [hl, hr] at h
                | some r =>
                    obtain rfl : Tree.plus l r = tree := by simpa [hl, hr] using h
                    exact ⟨lhs, rhs, rfl, hl, hr⟩
          · cases h

theorem tree?_push_operand (h : s.size < 2 ^ 32) (operand : Operand) :
    (s.push operand.node).2.tree? (s.push operand.node).1 = some operand.tree := by
  have hget := get?_push_self h operand.node
  rw [get?] at hget
  rw [tree?, treeAt?, hget]
  cases operand <;> rfl

/-- A sum of two nodes says the sum of what they say. -/
theorem tree?_push_plus (h : s.size < 2 ^ 32) {lhs rhs : NodeId} {l r : Tree}
    (hl : s.tree? lhs = some l) (hr : s.tree? rhs = some r) :
    (s.push (.plus lhs rhs)).2.tree? (s.push (.plus lhs rhs)).1 = some (.plus l r) := by
  have hindex : (s.push (.plus lhs rhs)).1.index = s.size := by
    rw [fst_push, NodeId.index_ofIndex h]
  have hget := get?_push_self h (.plus lhs rhs)
  have hl' := (Extends.push s (.plus lhs rhs)).tree?_eq hl
  have hr' := (Extends.push s (.plus lhs rhs)).tree?_eq hr
  rw [get?] at hget
  rw [tree?] at hl' hr'
  rw [tree?, treeAt?, hget]
  dsimp only
  rw [dif_pos (by rw [hindex]; exact ⟨index_lt_of_tree? hl, index_lt_of_tree? hr⟩), hl', hr']

end Store

open Store (Extends)

/-! ### The way back -/

variable {store store' : Store} {last root : NodeId} {pending : List NodeId}
  {operands before : List Operand}

theorem addSums_cons (last id : NodeId) (pending : List NodeId) (store : Store) :
    addSums last (id :: pending) store =
      addSums (store.push (.plus id last)).1 pending (store.push (.plus id last)).2 := rfl

theorem size_addSums (last : NodeId) (pending : List NodeId) (store : Store) :
    (addSums last pending store).2.size = store.size + pending.length := by
  induction pending generalizing last store with
  | nil => rfl
  | cons id pending ih =>
      rw [addSums_cons, ih, Store.size_push, List.length_cons]
      omega

theorem extends_addSums (last : NodeId) (pending : List NodeId) (store : Store) :
    store.Extends (addSums last pending store).2 := by
  induction pending generalizing last store with
  | nil => exact .refl store
  | cons id pending ih => exact (Extends.push store _).trans (ih _ _)

/-- Each id says the operand in its place. -/
def Say (store : Store) (ids : List NodeId) (operands : List Operand) : Prop :=
  List.Forall₂ (fun id o => store.tree? id = some o.tree) ids operands

theorem Say.extends (h : Say store pending before) (hext : store.Extends store') :
    Say store' pending before :=
  List.Forall₂.imp (fun _ _ hid => hext.tree?_eq hid) h

/-- The sums over the pending operands, last one first, make the sum of all of them. -/
theorem addSums_spec (hne : operands ≠ []) (hlast : store.tree? last = some (Tree.sum operands))
    (hpending : Say store pending before) (hsize : store.size + pending.length ≤ 2 ^ 32) :
    (addSums last pending store).2.tree? (addSums last pending store).1 =
      some (Tree.sum (before.reverse ++ operands)) := by
  induction pending generalizing last store operands before with
  | nil =>
      cases hpending
      exact hlast
  | cons id pending ih =>
      cases hpending with
      | @cons _ o _ before hid hrest =>
          rw [List.length_cons] at hsize
          have hpush := Store.tree?_push_plus (by omega) hid hlast
          rw [← Tree.sum_cons o hne] at hpush
          have hsay := Say.extends hrest (.push store (.plus id last))
          -- The new sum takes the part of `last`, with one more operand on its left.
          rw [addSums_cons, List.reverse_cons, List.append_assoc]
          exact ih (by simp) hpush hsay (by rw [Store.size_push]; omega)

theorem extends_build (ids : List NodeId) (store : Store) :
    store.Extends (build ids store).2 := by
  cases ids with
  | nil => exact .refl store
  | cons last pending => exact extends_addSums last pending store

theorem size_build (ids : List NodeId) (store : Store) :
    (build ids store).2.size = store.size + (ids.length - 1) := by
  cases ids with
  | nil => rfl
  | cons last pending => exact size_addSums last pending store

theorem build_spec {ids : List NodeId} (hne : operands ≠ []) (h : Say store ids operands)
    (hsize : store.size + (ids.length - 1) ≤ 2 ^ 32) :
    (build ids store).2.tree? (build ids store).1 = some (Tree.sum operands.reverse) := by
  cases h with
  | nil => exact absurd rfl hne
  | @cons last o pending before hlast hpending =>
      have hsum : store.tree? last = some (Tree.sum [o]) := hlast
      rw [List.reverse_cons]
      exact addSums_spec (by simp) hsum hpending hsize

/-! ### The way there -/

theorem extends_pushOperands (pending : List NodeId) (operands : List Operand) (store : Store) :
    store.Extends (pushOperands pending operands store).2 := by
  induction operands generalizing pending store with
  | nil => exact .refl store
  | cons o operands ih => exact (Extends.push store o.node).trans (ih _ _)

theorem size_pushOperands (pending : List NodeId) (operands : List Operand) (store : Store) :
    (pushOperands pending operands store).2.size = store.size + operands.length := by
  induction operands generalizing pending store with
  | nil => rfl
  | cons o operands ih =>
      rw [pushOperands, ih, Store.size_push, List.length_cons]
      omega

theorem length_pushOperands (pending : List NodeId) (operands : List Operand) (store : Store) :
    (pushOperands pending operands store).1.length = operands.length + pending.length := by
  induction operands generalizing pending store with
  | nil => simp [pushOperands]
  | cons o operands ih =>
      rw [pushOperands, ih, List.length_cons, List.length_cons]
      omega

/-- The operands are found under the ids, last one first. -/
theorem pushOperands_spec (h : Say store pending before)
    (hsize : store.size + operands.length ≤ 2 ^ 32) :
    Say (pushOperands pending operands store).2 (pushOperands pending operands store).1
      (operands.reverse ++ before) := by
  induction operands generalizing pending store before with
  | nil => exact h
  | cons o operands ih =>
      rw [List.length_cons] at hsize
      have ho := Store.tree?_push_operand (s := store) (by omega) o
      have hsay := Say.extends h (.push store o.node)
      rw [pushOperands, List.reverse_cons, List.append_assoc]
      exact ih (.cons ho hsay) (by rw [Store.size_push]; omega)

/-! ### The whole formula -/

section Read

variable (source : List Char) (store : Store)

/-- The operands of a formula, and the error that ends them. -/
def operandsOf (source : List Char) : List Operand × Option FormulaError :=
  scan (.ofRange (Text.byteLength source) (Text.byteLength source)) (lexemes source)

theorem read_eq : read source store = finish [] (operandsOf source) store :=
  readSum_eq _ _ _ _

theorem extends_finish (pending : List NodeId) (found : List Operand × Option FormulaError)
    (store : Store) : store.Extends (finish pending found store).2 := by
  have hpush := extends_pushOperands pending found.1 store
  cases h : found.2 with
  | none => simpa only [finish, h] using hpush.trans (extends_build _ _)
  | some e => simpa only [finish, h] using hpush

/-- Reading keeps the nodes that are there. -/
theorem extends_readSum (stop : Span) (pending : List NodeId) (lexemes : List Lexeme)
    (store : Store) : store.Extends (readSum stop pending lexemes store).2 := by
  rw [readSum_eq]
  exact extends_finish _ _ _

theorem extends_read : store.Extends (read source store).2 :=
  extends_readSum _ _ _ _

/-- Reading adds no more nodes than the formula has characters. -/
theorem size_read_le : (read source store).2.size ≤ store.size + source.length := by
  have hlexemes := length_lexemes_le source
  have hscan : 2 * (operandsOf source).1.length ≤ (lexemes source).length + 1 :=
    length_scan_le _ _
  have hpush := size_pushOperands [] (operandsOf source).1 store
  rw [read_eq]
  cases h : (operandsOf source).2 with
  | none =>
      simp only [finish, h]
      rw [size_build, length_pushOperands, List.length_nil]
      omega
  | some e =>
      simp only [finish, h]
      omega

/-- The node says what the text of a formula says: the sum of its operands, of which there is at
least one. -/
structure Reads (source : List Char) (store : Store) (root : NodeId) : Prop where
  complete : (operandsOf source).2 = none
  ne_nil : (operandsOf source).1 ≠ []
  tree?_eq : store.tree? root = some (Tree.sum (operandsOf source).1)

variable {source store} {store' : Store} {root : NodeId}

theorem Reads.extends (h : Reads source store root) (hext : store.Extends store') :
    Reads source store' root :=
  ⟨h.complete, h.ne_nil, hext.tree?_eq h.tree?_eq⟩

theorem read_spec (h : read source store = (.ok root, store')) (hsize : store'.size ≤ 2 ^ 32) :
    Reads source store' root := by
  rw [read_eq, finish] at h
  cases hnone : (operandsOf source).2 with
  | some e =>
      rw [hnone] at h
      cases h
  | none =>
      have hne : (operandsOf source).1 ≠ [] := scan_ne_nil hnone
      rw [hnone] at h
      cases h
      rw [size_build, size_pushOperands, length_pushOperands, List.length_nil] at hsize
      have hroom : store.size + (operandsOf source).1.length ≤ 2 ^ 32 := by omega
      have hsay := pushOperands_spec .nil hroom
      rw [List.append_nil] at hsay
      refine ⟨hnone, hne, ?_⟩
      rw [build_spec (by simpa using hne) hsay, List.reverse_reverse]
      rw [size_pushOperands, length_pushOperands, List.length_nil]
      omega

end Read

end PipeSheet.Formula
