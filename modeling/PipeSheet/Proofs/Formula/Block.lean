import Mathlib.Data.List.Range
import PipeSheet.Proofs.Formula.Sum
/-!
# PipeSheet.Proofs.Formula.Block

**A formula that reads is one block of nodes at the end of its store.**

The operands stand first, in the order of the text. Behind them are the sums: the innermost one is
over the last two operands, and each further one takes the next operand to the left and the sum
before it. Where the block begins is all that it depends on besides the operands.

A formula that fails leaves the operands before the failure, and no sums.

* `Store.append`: several nodes added at once;
* `block`, `read_eq_append`: the nodes that reading adds;
* `childrenFirst_read`: children stand first in them.
-/

namespace PipeSheet.Formula

/-! ### Nodes at the end of a store -/

namespace Store

variable {s : Store} {nodes : List Node}

/-- The store with some nodes behind its own. -/
def append (s : Store) (nodes : List Node) : Store :=
  ⟨(s.nodes.toList ++ nodes).toArray⟩

@[simp] theorem toList_append (s : Store) (nodes : List Node) :
    (s.append nodes).nodes.toList = s.nodes.toList ++ nodes := rfl

@[simp] theorem append_nil (s : Store) : s.append [] = s := by
  simp [append]

@[simp] theorem append_append (s : Store) (nodes more : List Node) :
    (s.append nodes).append more = s.append (nodes ++ more) := by
  simp [append]

@[simp] theorem size_append (s : Store) (nodes : List Node) :
    (s.append nodes).size = s.size + nodes.length := by
  simp [append, size]

theorem snd_push (s : Store) (node : Node) : (s.push node).2 = s.append [node] := by
  have hnodes : s.nodes.push node = (s.nodes.toList ++ [node]).toArray := by
    rw [← Array.toList_push, Array.toArray_toList]
  exact congrArg Store.mk hnodes

theorem extends_append (s : Store) (nodes : List Node) : s.Extends (s.append nodes) :=
  ⟨nodes, rfl⟩

theorem getElem?_append_right (s : Store) (nodes : List Node) (i : Nat) :
    (s.append nodes).nodes[s.size + i]? = nodes[i]? := by
  have hlength : s.nodes.toList.length = s.size := Array.length_toList
  rw [← Array.getElem?_toList, toList_append, List.getElem?_append_right (by omega), hlength,
    Nat.add_sub_cancel_left]

/-- Nodes may be added whose children are in the store or among those that are added before. -/
theorem ChildrenFirst.append (h : s.ChildrenFirst)
    (hnodes : ∀ i node, nodes[i]? = some node → ∀ child ∈ node.children, child.index < s.size + i) :
    (s.append nodes).ChildrenFirst := by
  intro i node hnode child hchild
  by_cases hi : i < s.size
  · have hold : s.nodes[i]? = some s.nodes[i] := Array.getElem?_eq_getElem hi
    have heq := (extends_append s nodes).getElem?_eq hold
    rw [hnode, Option.some.injEq] at heq
    exact h i s.nodes[i] hold child (heq ▸ hchild)
  · obtain ⟨j, rfl⟩ := Nat.exists_eq_add_of_le (Nat.le_of_not_lt hi)
    rw [getElem?_append_right] at hnode
    exact hnodes j node hnode child hchild

end Store

/-! ### Blocks -/

/-- The sums over some operands whose nodes begin at an index, the innermost one first. -/
def sumNodes (first operands : Nat) : List Node :=
  (List.range (operands - 1)).map fun j =>
    .plus (.ofIndex (first + operands - 2 - j)) (.ofIndex (first + operands - 1 + j))

/-- The nodes of the sum of some operands, from an index on. -/
def block (first : Nat) (operands : List Operand) : List Node :=
  operands.map Operand.node ++ sumNodes first operands.length

variable {operands : List Operand} {first : Nat} {node : Node}

@[simp] theorem length_sumNodes (first operands : Nat) :
    (sumNodes first operands).length = operands - 1 := by
  simp [sumNodes]

/-- Every operand but the first comes with a sum. -/
@[simp] theorem length_block (first : Nat) (operands : List Operand) :
    (block first operands).length = operands.length + (operands.length - 1) := by
  simp [block]

theorem getElem?_block_of_lt {i : Nat} (hi : i < operands.length) (first : Nat) :
    (block first operands)[i]? = operands[i]?.map Operand.node := by
  rw [block, List.getElem?_append_left (by rwa [List.length_map]), List.getElem?_map]

theorem getElem?_block_sum {j : Nat} (hj : j < operands.length - 1) (first : Nat) :
    (block first operands)[operands.length + j]? =
      some (.plus (.ofIndex (first + operands.length - 2 - j))
        (.ofIndex (first + operands.length - 1 + j))) := by
  rw [block, List.getElem?_append_right (by simp), List.length_map, Nat.add_sub_cancel_left,
    sumNodes, List.getElem?_map, List.getElem?_range hj]
  rfl

theorem Operand.children_node (o : Operand) : o.node.children = [] := by
  cases o <;> rfl

/-- A node of a block is an operand, or a sum over two nodes of the block before it. -/
theorem children_block {i : Nat} (hsize : first + (block first operands).length ≤ 2 ^ 32)
    (hnode : (block first operands)[i]? = some node) :
    ∀ child ∈ node.children, first ≤ child.index ∧ child.index < first + i := by
  intro child hchild
  by_cases hi : i < operands.length
  · rw [getElem?_block_of_lt hi, Option.map_eq_some_iff] at hnode
    obtain ⟨o, _, rfl⟩ := hnode
    rw [o.children_node] at hchild
    exact absurd hchild List.not_mem_nil
  · obtain ⟨j, rfl⟩ := Nat.exists_eq_add_of_le (Nat.le_of_not_lt hi)
    have hj : operands.length + j < (block first operands).length :=
      (List.getElem?_eq_some_iff.1 hnode).1
    rw [length_block] at hj hsize
    have hlt : j < operands.length - 1 := Nat.lt_of_add_lt_add_left hj
    rw [getElem?_block_sum hlt, Option.some.injEq] at hnode
    subst hnode
    rcases List.mem_pair.1 hchild with rfl | rfl
    · rw [NodeId.index_ofIndex (by omega)]
      omega
    · rw [NodeId.index_ofIndex (by omega)]
      omega

/-! ### What reading adds -/

variable {store : Store}

theorem snd_pushOperands (pending : List NodeId) (operands : List Operand) (store : Store) :
    (pushOperands pending operands store).2 = store.append (operands.map Operand.node) := by
  induction operands generalizing pending store with
  | nil => rw [pushOperands, List.map_nil, Store.append_nil]
  | cons o operands ih =>
      rw [pushOperands, ih, Store.snd_push, Store.append_append]
      rfl

/-- The ids of the operands count from the size of the store. -/
theorem fst_pushOperands (pending : List NodeId) (operands : List Operand) (store : Store) :
    (pushOperands pending operands store).1 =
      ((List.range' store.size operands.length).map NodeId.ofIndex).reverse ++ pending := by
  induction operands generalizing pending store with
  | nil => rfl
  | cons o operands ih =>
      rw [pushOperands, ih, Store.size_push, Store.fst_push, List.length_cons, List.range'_succ,
        List.map_cons, List.reverse_cons, List.append_assoc]
      rfl

/-- The sums over pending operands, of which the last one and then each new sum ends the store. -/
theorem addSums_range' (first count last : Nat) (hlast : store.size = last + 1) :
    addSums (.ofIndex last) ((List.range' first count).map NodeId.ofIndex).reverse store =
      (.ofIndex (last + count), store.append ((List.range count).map fun j =>
        .plus (.ofIndex (first + count - 1 - j)) (.ofIndex (last + j)))) := by
  induction count generalizing last store with
  | zero => simp [addSums]
  | succ count ih =>
      have hsize : (store.push (.plus (.ofIndex (first + count)) (.ofIndex last))).2.size =
          last + 1 + 1 := by rw [Store.size_push, hlast]
      -- The sum over `last` comes first, and those behind it are the sums of one operand less.
      have hsums : (Node.plus (.ofIndex (first + count)) (.ofIndex last) ::
          (List.range count).map fun j =>
            .plus (.ofIndex (first + count - 1 - j)) (.ofIndex (last + 1 + j))) =
          (List.range (count + 1)).map fun j =>
            .plus (.ofIndex (first + (count + 1) - 1 - j)) (.ofIndex (last + j)) := by
        rw [List.range_succ_eq_map, List.map_cons, List.map_map]
        refine congrArg _ (List.map_congr_left fun j _ => ?_)
        have hleft : first + count - 1 - j = first + (count + 1) - 1 - (j + 1) := by omega
        have hright : last + 1 + j = last + (j + 1) := by omega
        rw [hleft, hright]
        rfl
      rw [List.range'_1_concat, List.map_append, List.reverse_append, List.map_singleton,
        List.reverse_singleton, List.singleton_append, addSums_cons, Store.fst_push, hlast,
        ih (last + 1) hsize, Store.snd_push, Store.append_append, List.singleton_append, hsums,
        Nat.add_right_comm]
      rfl

/-- Summing up operands that end the store adds the sums of their block. -/
theorem build_range' {count : Nat} (hpos : 0 < count) (hsize : store.size = first + count) :
    build ((List.range' first count).map NodeId.ofIndex).reverse store =
      (.ofIndex (first + 2 * count - 2), store.append (sumNodes first count)) := by
  obtain ⟨rest, rfl⟩ : ∃ rest, count = rest + 1 := ⟨count - 1, by omega⟩
  have hsums := addSums_range' first rest (first + rest) hsize
  have hroot : first + rest + rest = first + 2 * (rest + 1) - 2 := by omega
  rw [hroot] at hsums
  rw [List.range'_1_concat, List.map_append, List.reverse_append]
  exact hsums

/-- Reading adds a block, or the operands before a failure. -/
theorem read_eq_append (source : List Char) (store : Store) :
    read source store =
      match operandsOf source with
      | (operands, none) =>
        (.ok (.ofIndex (store.size + 2 * operands.length - 2)),
          store.append (block store.size operands))
      | (operands, some e) => (.error e, store.append (operands.map Operand.node)) := by
  have hids := fst_pushOperands [] (operandsOf source).1 store
  have hstore := snd_pushOperands [] (operandsOf source).1 store
  have hne : (operandsOf source).2 = none → (operandsOf source).1 ≠ [] := scan_ne_nil
  rw [List.append_nil] at hids
  rw [read_eq, finish]
  dsimp only
  rw [hids, hstore]
  generalize operandsOf source = found at hne
  obtain ⟨operands, _ | e⟩ := found
  · have hpos := List.length_pos_iff.2 (hne rfl)
    dsimp only
    rw [build_range' hpos (by simp), Store.append_append]
    rfl
  · rfl

section Read

variable {source : List Char} {root : NodeId} {store' : Store}

/-- The operands of a formula that reads, and the block that it adds. -/
theorem exists_block_of_read (h : read source store = (.ok root, store')) :
    ∃ operands, operandsOf source = (operands, none) ∧ operands ≠ [] ∧
      root = .ofIndex (store.size + 2 * operands.length - 2) ∧
      store' = store.append (block store.size operands) := by
  have hne : (operandsOf source).2 = none → (operandsOf source).1 ≠ [] := scan_ne_nil
  rw [read_eq_append] at h
  generalize operandsOf source = found at h hne
  obtain ⟨operands, _ | e⟩ := found
  · cases h
    exact ⟨operands, rfl, hne rfl, rfl, rfl⟩
  · cases h

/-- A formula of `k` operands takes `2 * k - 1` nodes. -/
theorem size_of_read (h : read source store = (.ok root, store')) :
    store'.size = store.size + (2 * (operandsOf source).1.length - 1) := by
  obtain ⟨operands, hoperands, hne, _, rfl⟩ := exists_block_of_read h
  have hpos := List.length_pos_iff.2 hne
  rw [hoperands, Store.size_append, length_block]
  dsimp only
  omega

/-- Where children stand first, they do so after reading a formula, also after one that fails. -/
theorem childrenFirst_read (h : store.ChildrenFirst)
    (hsize : (read source store).2.size ≤ 2 ^ 32) : (read source store).2.ChildrenFirst := by
  rw [read_eq_append] at hsize ⊢
  generalize operandsOf source = found at hsize ⊢
  obtain ⟨operands, _ | e⟩ := found
  · dsimp only at hsize ⊢
    rw [Store.size_append] at hsize
    exact h.append fun i node hnode child hchild => (children_block hsize hnode child hchild).2
  · refine h.append fun i node hnode child hchild => ?_
    rw [List.getElem?_map, Option.map_eq_some_iff] at hnode
    obtain ⟨o, _, rfl⟩ := hnode
    rw [o.children_node] at hchild
    exact absurd hchild List.not_mem_nil

/-- `childrenFirst_read`, of a reading whose store is named. -/
theorem childrenFirst_of_read {result : Except FormulaError NodeId} (hs : store.ChildrenFirst)
    (h : read source store = (result, store')) (hsize : store'.size ≤ 2 ^ 32) :
    store'.ChildrenFirst := by
  have hstore : (read source store).2 = store' := congrArg Prod.snd h
  rw [← hstore] at hsize ⊢
  exact childrenFirst_read hs hsize

/-- The root of a formula that reads is the last node. -/
theorem index_root_of_read (h : read source store = (.ok root, store'))
    (hsize : store'.size ≤ 2 ^ 32) : root.index + 1 = store'.size := by
  obtain ⟨operands, _, hne, rfl, rfl⟩ := exists_block_of_read h
  have hpos := List.length_pos_iff.2 hne
  rw [Store.size_append, length_block] at hsize ⊢
  rw [NodeId.index_ofIndex (by omega)]
  omega

end Read

end PipeSheet.Formula
