import PipeSheet.Proofs.Formula.Copy
/-!
# PipeSheet.Proofs.Formula.Moved

**Where a formula is read decides about its ids, and about nothing else.**

Reading behind some nodes adds what reading without them adds, and every id in it counts those nodes
as well. This is plain for the operands, which have no children, and for a sum it holds because a
block depends on the index where it begins only through the ids of its sums (`block_add`).

Ids are numbers of 32 bits. Increasing one by the number of nodes before it is an addition as long
as there are ids left (`NodeId.index_moved`); only then does a moved id say what it said
(`Store.tree?_behind`).

* `NodeId.moved`: an id that counts some nodes more;
* `Store.behind`: the nodes of one store behind those of another one;
* `read_behind`: the law.
-/

namespace PipeSheet.Formula

open Text (byteLength)

/-! ### Ids that count more nodes -/

namespace NodeId

variable {id : NodeId} {n i : Nat}

/-- The id increased by a number of nodes. -/
def moved (n : Nat) (id : NodeId) : NodeId :=
  .ofIndex (id.index + n)

theorem index_moved (h : id.index + n < 2 ^ 32) : (id.moved n).index = id.index + n :=
  index_ofIndex h

/-- Ids are counted modulo their number, so an id that was cut off already is moved all the same. -/
theorem moved_ofIndex (n i : Nat) : (ofIndex i).moved n = ofIndex (i + n) := by
  have hword : UInt32.ofNat ((UInt32.ofNat i).toNat + n) = UInt32.ofNat (i + n) := by
    rw [UInt32.ofNat_add, UInt32.ofNat_toNat, UInt32.ofNat_add]
  exact congrArg NodeId.mk hword

end NodeId

/-! ### One store behind another -/

namespace Store

variable {s before : Store} {id : NodeId} {node : Node} {tree : Tree} {i : Nat}

/-- The nodes of a store behind those of another one, with all ids moved. -/
def behind (s before : Store) : Store :=
  before.append (s.nodes.toList.map (Node.mapIds (.moved before.size)))

@[simp] theorem behind_empty (before : Store) : empty.behind before = before :=
  before.append_nil

@[simp] theorem size_behind (s before : Store) :
    (s.behind before).size = before.size + s.size := by
  rw [behind, size_append, List.length_map, Array.length_toList]
  rfl

theorem append_behind (s before : Store) (nodes : List Node) :
    (s.append nodes).behind before =
      (s.behind before).append (nodes.map (Node.mapIds (.moved before.size))) := by
  rw [behind, toList_append, List.map_append, behind, append_append]

theorem getElem?_behind (s before : Store) (i : Nat) :
    (s.behind before).nodes[before.size + i]? =
      s.nodes[i]?.map (Node.mapIds (.moved before.size)) := by
  rw [behind, getElem?_append_right, List.getElem?_map, Array.getElem?_toList]

theorem get?_behind (hsize : before.size + s.size ≤ 2 ^ 32) (h : s.get? id = some node) :
    (s.behind before).get? (id.moved before.size) =
      some (node.mapIds (.moved before.size)) := by
  have hlt := index_lt_of_get? h
  rw [get?] at h
  rw [get?, NodeId.index_moved (by omega), Nat.add_comm, getElem?_behind, h]
  rfl

/-- As long as there are ids for all nodes, a moved id says what it said. -/
theorem tree?_behind (hfirst : s.ChildrenFirst) (hsize : before.size + s.size ≤ 2 ^ 32)
    (h : s.tree? id = some tree) :
    (s.behind before).tree? (id.moved before.size) = some tree := by
  induction tree generalizing id with
  | number v =>
      have hcopy := get?_behind hsize (get?_of_tree? h)
      rw [get?] at hcopy
      rw [tree?, treeAt?, hcopy]
      rfl
  | ref q =>
      have hcopy := get?_behind hsize (get?_of_tree? h)
      rw [get?] at hcopy
      rw [tree?, treeAt?, hcopy]
      rfl
  | plus l r ihl ihr =>
      obtain ⟨lhs, rhs, hnode, hl, hr⟩ := get?_of_tree? h
      have hid := index_lt_of_get? hnode
      have hllt := hfirst id.index _ hnode lhs (List.mem_pair.2 (.inl rfl))
      have hrlt := hfirst id.index _ hnode rhs (List.mem_pair.2 (.inr rfl))
      have hmoved : ∀ c : NodeId, c.index < id.index →
          (c.moved before.size).index < (id.moved before.size).index := by
        intro c hc
        rw [NodeId.index_moved (by omega), NodeId.index_moved (by omega)]
        omega
      have hcopy := get?_behind hsize hnode
      rw [get?] at hcopy
      have hl' := ihl hl
      have hr' := ihr hr
      rw [tree?] at hl' hr'
      rw [tree?, treeAt?, hcopy]
      dsimp only [Node.mapIds]
      rw [dif_pos ⟨hmoved lhs hllt, hmoved rhs hrlt⟩, hl', hr']

end Store

/-! ### Reading behind a store -/

theorem Operand.mapIds_node (name : NodeId → NodeId) (o : Operand) :
    o.node.mapIds name = o.node := by
  cases o <;> rfl

theorem map_mapIds_node (name : NodeId → NodeId) (operands : List Operand) :
    (operands.map Operand.node).map (Node.mapIds name) = operands.map Operand.node := by
  rw [List.map_map]
  exact List.map_congr_left fun o _ => o.mapIds_node name

/-- A block that begins further behind is the same block with its ids moved. -/
theorem block_add (first n : Nat) (operands : List Operand) :
    block (first + n) operands = (block first operands).map (Node.mapIds (.moved n)) := by
  rw [block, block, List.map_append, map_mapIds_node, sumNodes, sumNodes, List.map_map]
  refine congrArg _ (List.map_congr_left fun j hj => ?_)
  rw [List.mem_range] at hj
  have hlhs : first + n + operands.length - 2 - j = first + operands.length - 2 - j + n := by omega
  have hrhs : first + n + operands.length - 1 + j = first + operands.length - 1 + j + n := by omega
  rw [hlhs, hrhs, ← NodeId.moved_ofIndex, ← NodeId.moved_ofIndex]
  rfl

/-- Reading behind a store gives what reading without it gives, moved behind it. -/
theorem read_behind (source : List Char) (s before : Store) :
    read source (s.behind before) =
      ((read source s).1.map (.moved before.size), (read source s).2.behind before) := by
  have hne : (operandsOf source).2 = none → (operandsOf source).1 ≠ [] := scan_ne_nil
  rw [read_eq_append, read_eq_append, Store.size_behind, Nat.add_comm before.size]
  generalize operandsOf source = found at hne
  obtain ⟨operands, _ | e⟩ := found
  · have hpos : 0 < operands.length := List.length_pos_iff.2 (hne rfl)
    have hroot : s.size + before.size + 2 * operands.length - 2 =
        s.size + 2 * operands.length - 2 + before.size := by omega
    dsimp only
    rw [Store.append_behind, block_add, hroot, ← NodeId.moved_ofIndex]
    rfl
  · dsimp only
    rw [Store.append_behind, map_mapIds_node]
    rfl

/-- Reading into a store gives what reading alone gives, moved behind it. -/
theorem read_eq_behind (source : List Char) (store : Store) :
    read source store =
      ((read source .empty).1.map (.moved store.size), (read source .empty).2.behind store) := by
  rw [← read_behind, Store.behind_empty]

/-- Reading into an empty store adds no more nodes than the text has bytes. Children stand first in
them, and the root is one of them. -/
theorem of_read_empty {source : List Char} {result : Except FormulaError NodeId} {alone : Store}
    (h : read source .empty = (result, alone)) (hroom : byteLength source ≤ 2 ^ 32) :
    alone.size ≤ byteLength source ∧ alone.ChildrenFirst ∧
      ∀ root, result = .ok root → root.index < alone.size := by
  have hlength := Text.length_le_byteLength source
  have hgrown := size_read_le source .empty
  rw [h, Store.size_empty, Nat.zero_add] at hgrown
  have hsize : alone.size ≤ byteLength source := Nat.le_trans hgrown hlength
  refine ⟨hsize, childrenFirst_of_read Store.childrenFirst_empty h (hsize.trans hroom), ?_⟩
  rintro root rfl
  have hlast := index_root_of_read h (hsize.trans hroom)
  omega

/-- A store makes no difference to why a text is no formula. -/
theorem fst_read_eq_error_iff {source : List Char} {store : Store} {e : FormulaError} :
    (read source store).1 = .error e ↔ (read source .empty).1 = .error e := by
  rw [read_eq_behind]
  cases (read source .empty).1 with
  | error e' => exact Iff.rfl
  | ok root => exact iff_of_false nofun nofun

/-- A store makes no difference to whether a text is a formula. -/
theorem exists_fst_read_eq_ok {source : List Char} {store : Store} {root : NodeId}
    (h : (read source store).1 = .ok root) : ∃ r, (read source .empty).1 = .ok r := by
  cases halone : (read source .empty).1 with
  | error e =>
      rw [fst_read_eq_error_iff.2 halone] at h
      cases h
  | ok r => exact ⟨r, rfl⟩

end PipeSheet.Formula
