import PipeSheet.Proofs.Formula.Records
import PipeSheet.Proofs.Safety.Extract
/-!
# PipeSheet.Proofs.Formula.Copy

**What is extracted is one formula, node for node.**

A store may hold a formula in any way in which children stand first: a node may have several
parents, and nodes of other formulas may stand in between. What is extracted are the nodes under the
root, each of them once and in their order, so it is the same formula, as a tree and in its text.

The copy is a store in which every node is under the root. Of such a store nothing is left out, and
no id changes, so extracting once more gives the same store.

A machine extracts it as well, unless more nodes are under the root than there are ids for in a new
store. Then every id up to the last one is under the root, as at the end of a chain (`chain`).

* `Node.mapIds`: a node with other names for its children;
* `Store.CopiesUnder`: one store consists of the nodes of the other one that are under a root;
* `Store.extract?_copies`: what is extracted, and that a machine extracts it.
-/

namespace PipeSheet.Formula

/-- The node with other names for its children. -/
def Node.mapIds (name : NodeId → NodeId) : Node → Node
  | .plus lhs rhs => .plus (name lhs) (name rhs)
  | leaf => leaf

namespace Store

variable {s out : Store} {root r : NodeId} {name : NodeId → NodeId}

/-- One store consists of the nodes of the other one that are under a root, each of them once and in
their order, under new names. -/
structure CopiesUnder (s : Store) (root : NodeId) (name : NodeId → NodeId) (out : Store) :
    Prop where
  onto : ∀ i < out.size, ∃ id, s.Under root.index id.index ∧ (name id).index = i
  ordered : ∀ a b, s.Under root.index a.index → s.Under root.index b.index → a.index < b.index →
    (name a).index < (name b).index
  node : ∀ id node, s.Under root.index id.index → s.get? id = some node →
    out.get? (name id) = some (node.mapIds name)

/-- What is copied by counting is copied. -/
theorem Extracts.copiesUnder (h : s.Extracts root out r) (hfirst : s.ChildrenFirst)
    (hroot : root.index < s.size) :
    s.CopiesUnder root (fun id => .ofIndex (Nat.count (Marked (marks s root)) id.index)) out := by
  have hmarked : ∀ i, Marked (marks s root) i ↔ s.Under root.index i :=
    fun i => marked_marks hfirst hroot
  have hkept : ∀ i, Marked (marks s root) i → i < root.index + 1 := fun i hi =>
    Nat.lt_succ_of_le (hfirst.le_of_under ((hmarked i).1 hi))
  refine ⟨fun i hi => ?_, fun a b ha _ hlt => ?_, fun id node hid hnode => ?_⟩
  · rw [h.copy.size_eq] at hi
    obtain ⟨j, hj, hmark, rfl⟩ := exists_count_eq hi
    have hindex : (NodeId.ofIndex j).index = j :=
      NodeId.index_ofIndex (Nat.lt_of_lt_of_le hj root.index_lt)
    refine ⟨.ofIndex j, ?_, ?_⟩
    · rw [hindex]
      exact (hmarked j).1 hmark
    · rw [index_recounted, hindex]
  · rw [index_recounted, index_recounted]
    exact Nat.count_strict_mono ((hmarked _).2 ha) hlt
  · have hmark := (hmarked _).2 hid
    rw [get?, index_recounted, h.copy.node _ node hmark (hkept _ hmark) hnode]
    cases node <;> rfl

namespace CopiesUnder

/-- A child of a node under the root is under the root and stands before the node, and so do the
copies of the two. -/
theorem child (h : s.CopiesUnder root name out) (hfirst : s.ChildrenFirst) {id c : NodeId}
    {node : Node} (hid : s.Under root.index id.index) (hnode : s.get? id = some node)
    (hc : c ∈ node.children) :
    s.Under root.index c.index ∧ (name c).index < (name id).index := by
  have hunder : s.Under root.index c.index := hid.tail ⟨node, hnode, c, hc, rfl⟩
  exact ⟨hunder, h.ordered c id hunder hid (hfirst id.index node hnode c hc)⟩

/-- A copy says what its node says. -/
theorem tree?_eq (h : s.CopiesUnder root name out) (hfirst : s.ChildrenFirst) {id : NodeId}
    {tree : Tree} (hid : s.Under root.index id.index) (htree : s.tree? id = some tree) :
    out.tree? (name id) = some tree := by
  induction tree generalizing id with
  | number v =>
      have hcopy : out.nodes[(name id).index]? = some (.number v) :=
        h.node id _ hid (get?_of_tree? htree)
      rw [tree?, treeAt?, hcopy]
  | ref q =>
      have hcopy : out.nodes[(name id).index]? = some (.ref q) :=
        h.node id _ hid (get?_of_tree? htree)
      rw [tree?, treeAt?, hcopy]
  | plus l r ihl ihr =>
      obtain ⟨lhs, rhs, hnode, hl, hr⟩ := get?_of_tree? htree
      have hcopy : out.nodes[(name id).index]? = some (.plus (name lhs) (name rhs)) :=
        h.node id _ hid hnode
      obtain ⟨hlunder, hllt⟩ := h.child hfirst hid hnode (List.mem_pair.2 (.inl rfl))
      obtain ⟨hrunder, hrlt⟩ := h.child hfirst hid hnode (List.mem_pair.2 (.inr rfl))
      have hl' : treeAt? out.nodes (name lhs).index = some l := ihl hlunder hl
      have hr' : treeAt? out.nodes (name rhs).index = some r := ihr hrunder hr
      rw [tree?, treeAt?, hcopy]
      dsimp only
      rw [dif_pos ⟨hllt, hrlt⟩, hl', hr']

/-- A child is copied to a child. -/
theorem isChild (h : s.CopiesUnder root name out) {a b : NodeId}
    (ha : s.Under root.index a.index) (hchild : s.IsChild a.index b.index) :
    out.IsChild (name a).index (name b).index := by
  obtain ⟨node, hnode, c, hc, hindex⟩ := hchild
  obtain rfl := NodeId.ext_index hindex
  refine ⟨_, h.node a node ha hnode, name c, ?_, rfl⟩
  cases node with
  | number v => cases hc
  | ref q => cases hc
  | plus lhs rhs => exact List.mem_map_of_mem (f := name) hc

/-- What is under the root is copied to what is under the copy of the root. -/
theorem under (h : s.CopiesUnder root name out) (hfirst : s.ChildrenFirst) {i : Nat}
    (hi : s.Under root.index i) :
    out.Under (name root).index (name (.ofIndex i)).index := by
  induction hi with
  | refl =>
      rw [NodeId.ofIndex_index]
      exact .refl
  | @tail j k hj hchild ih =>
      have hindex : ∀ {m}, m ≤ j → (NodeId.ofIndex m).index = m := fun hm =>
        NodeId.index_ofIndex (Nat.lt_of_le_of_lt (hm.trans (hfirst.le_of_under hj)) root.index_lt)
      refine ih.tail (h.isChild ?_ ?_)
      · rwa [hindex le_rfl]
      · rwa [hindex le_rfl, hindex (hfirst.lt_of_isChild hchild).le]

/-- Every node of the copy is under the copy of the root. -/
theorem under_root (h : s.CopiesUnder root name out) (hfirst : s.ChildrenFirst) {i : Nat}
    (hi : i < out.size) : out.Under (name root).index i := by
  obtain ⟨id, hid, rfl⟩ := h.onto i hi
  rw [← NodeId.ofIndex_index id]
  exact h.under hfirst hid

end CopiesUnder

/-! ### Copying a copy -/

/-- If every node is kept, the copy is the store itself. -/
theorem isCopy_self (hfirst : s.ChildrenFirst) {p : Nat → Prop} [DecidablePred p]
    (hp : ∀ i < s.size, p i) : IsCopy s p s.size s := by
  have hcount : ∀ i ≤ s.size, Nat.count p i = i := fun i hi =>
    Nat.count_iff_forall.2 fun j hj => hp j (Nat.lt_of_lt_of_le hj hi)
  refine ⟨(hcount _ le_rfl).symm, fun i node _ hi hnode => ?_⟩
  rw [hcount i hi.le, hnode]
  cases node with
  | number v => rfl
  | ref q => rfl
  | plus lhs rhs =>
      have hl := hfirst i _ hnode lhs (List.mem_pair.2 (.inl rfl))
      have hr := hfirst i _ hnode rhs (List.mem_pair.2 (.inr rfl))
      rw [Node.recounted, hcount _ (hl.trans hi).le, hcount _ (hr.trans hi).le,
        NodeId.ofIndex_index, NodeId.ofIndex_index]

/-- A store of which everything is under the last node is its own copy. -/
theorem extracts_self (hfirst : s.ChildrenFirst) (hlast : root.index + 1 = s.size)
    (hunder : ∀ i < s.size, s.Under root.index i) : s.Extracts root s root := by
  have hroot : root.index < s.size := by omega
  have hmarked : ∀ i < s.size, Marked (marks s root) i := fun i hi =>
    (marked_marks hfirst hroot).2 (hunder i hi)
  have hcount : Nat.count (Marked (marks s root)) root.index = root.index :=
    Nat.count_iff_forall.2 fun i hi => hmarked i (hi.trans hroot)
  refine ⟨?_, ?_⟩
  · rw [hlast]
    exact isCopy_self hfirst hmarked
  · rw [hcount, NodeId.ofIndex_index]

theorem Extracts.extract?_eq (h : s.Extracts root out r) (hfirst : s.ChildrenFirst)
    (hroot : root.index < s.size) : s.extract? root = some (out, r) := by
  obtain ⟨out', r', hextract, h'⟩ := exists_extract hfirst hroot
  obtain ⟨rfl, rfl⟩ := h.unique h' hfirst hroot
  exact hextract

/-! ### Extracting -/

/-- Every formula of a store in which children stand first is copied node for node, into a store
that holds nothing else. A machine does the same as long as it has an id for every node of the copy,
and stops otherwise. It always has one unless the root has the largest id, which it never gives
out. -/
theorem extract?_copies (hfirst : s.ChildrenFirst) (hroot : root.index < s.size) :
    ∃ out r, s.extract? root = some (out, r) ∧
      (∃ name, s.CopiesUnder root name out ∧ name root = r) ∧
      r.index + 1 = out.size ∧ out.ChildrenFirst ∧
      (∃ tree, s.tree? root = some tree ∧ out.tree? r = some tree ∧
        Displays s root (.ok tree.render) ∧ Displays out r (.ok tree.render)) ∧
      out.extract? r = some (out, r) ∧
      (out.size < 2 ^ 32 →
        Checked.extract s root = .ok (out, r) ∧ Checked.extract out r = .ok (out, r)) ∧
      (2 ^ 32 ≤ out.size → Checked.extract s root = .error .full) ∧
      (root ≠ .invalid → out.size < 2 ^ 32) := by
  obtain ⟨out, r, hextract, h⟩ := exists_extract hfirst hroot
  obtain ⟨tree, htree⟩ := Option.isSome_iff_exists.1 (hfirst.isSome_tree? hroot)
  have hcopies := h.copiesUnder hfirst hroot
  have hlast := h.index_root hfirst hroot
  have hfirst' := h.childrenFirst hfirst hroot
  have hroot' : r.index < out.size := by omega
  have htree' : out.tree? r = some tree := h.root_eq ▸ hcopies.tree?_eq hfirst .refl htree
  have hself : out.Extracts r out r :=
    extracts_self hfirst' hlast fun i hi => h.root_eq ▸ hcopies.under_root hfirst hi
  refine ⟨out, r, hextract, ⟨_, hcopies, h.root_eq.symm⟩, hlast, hfirst',
    ⟨tree, htree, htree', displays_of_tree? htree, displays_of_tree? htree'⟩,
    hself.extract?_eq hfirst' hroot', fun hsize => ⟨?_, ?_⟩, ?_, fun hvalid => ?_⟩
  · exact Checked.extract_eq hfirst hroot h hsize
  · exact Checked.extract_eq hfirst' hroot' hself hsize
  · exact Checked.extract_eq_full hfirst hroot h
  · have hne : root.index ≠ NodeId.invalid.index := fun heq => hvalid (NodeId.ext_index heq)
    have hmax : NodeId.invalid.index = 2 ^ 32 - 1 := rfl
    have hlt := root.index_lt
    have hle := h.size_le
    omega

/-- A number is added to itself, and again to the sum. It is copied once, and the two nodes of other
formulas that stand in between are left out. -/
theorem extract?_copies_of_shared :
    let sum (lhs rhs : Nat) : Node := .plus (.ofIndex lhs) (.ofIndex rhs)
    let s : Store := ⟨#[.number 1, .number 5, sum 0 0, .ref ⟨0, 2⟩, sum 2 0]⟩
    s.ChildrenFirst ∧ (NodeId.ofIndex 4).index < s.size ∧
      ∃ out r, s.extract? (.ofIndex 4) = some (out, r) ∧
        out.nodes = #[.number 1, sum 0 0, sum 1 0] ∧ r.index + 1 = out.size ∧
        Checked.extract s (.ofIndex 4) = .ok (out, r) := by
  intro sum s
  have hfirst : s.ChildrenFirst := (firstDangling?_eq_none_iff s).1 (by decide +kernel)
  have hroot : (NodeId.ofIndex 4).index < s.size := by decide
  obtain ⟨out, r, hextract, _, hlast, _, _, _, hchecked, _, hids⟩ := extract?_copies hfirst hroot
  have hnodes : (s.extract? (.ofIndex 4)).map (fun copy => copy.1.nodes) =
      some #[.number 1, sum 0 0, sum 1 0] := by decide +kernel
  rw [hextract] at hnodes
  exact ⟨hfirst, hroot, out, r, hextract, Option.some.inj hnodes, hlast,
    (hchecked (hids (by decide))).1⟩

/-! ### More nodes than ids -/

/-- A number, and behind it sums that add the node before them to itself. -/
def link : Nat → Node
  | 0 => .number 1
  | i + 1 => .plus (.ofIndex i) (.ofIndex i)

/-- A store of which every node needs all nodes before it. -/
def chain (n : Nat) : Store :=
  ⟨(Array.range n).map link⟩

section Chain

variable {n i j : Nat}

theorem size_chain (n : Nat) : (chain n).size = n := by
  rw [size, chain, Array.size_map, Array.size_range]

theorem getElem?_chain (h : i < n) : (chain n).nodes[i]? = some (link i) := by
  rw [chain, Array.getElem?_map, Array.getElem?_range, if_pos h]
  rfl

theorem exists_link_of_mem_chain {node : Node} (h : (chain n).nodes[i]? = some node) :
    i < n ∧ node = link i := by
  obtain ⟨hi, _⟩ := Array.getElem?_eq_some_iff.1 h
  have hlt : i < n := by rwa [← size_chain n]
  rw [getElem?_chain hlt] at h
  exact ⟨hlt, (Option.some.inj h).symm⟩

theorem childrenFirst_chain (h : n ≤ 2 ^ 32) : (chain n).ChildrenFirst := by
  intro i node hnode child hchild
  obtain ⟨hi, rfl⟩ := exists_link_of_mem_chain hnode
  cases i with
  | zero => cases hchild
  | succ i =>
      have hindex : (NodeId.ofIndex i).index = i := NodeId.index_ofIndex (by omega)
      obtain rfl | rfl := List.mem_pair.1 hchild
      · rw [hindex]
        exact Nat.lt_succ_self i
      · rw [hindex]
        exact Nat.lt_succ_self i

theorem under_chain (h : n ≤ 2 ^ 32) (hi : i < n) (hj : j ≤ i) : (chain n).Under i j := by
  induction i with
  | zero =>
      obtain rfl := Nat.le_zero.1 hj
      exact .refl
  | succ i ih =>
      rcases Nat.le_succ_iff.1 hj with hj | rfl
      · have hchild : (chain n).IsChild (i + 1) i :=
          ⟨_, getElem?_chain hi, .ofIndex i, List.mem_cons_self, NodeId.index_ofIndex (by omega)⟩
        exact .head hchild (ih (by omega) hj)
      · exact .refl

end Chain

/-- The last node of a store of `2 ^ 32` nodes has the largest id. If all others are under it, a
machine has no id for its copy, and stops. Such a store is read from a dump. -/
theorem extract_full_of_chain :
    (chain (2 ^ 32)).ChildrenFirst ∧ NodeId.invalid.index < (chain (2 ^ 32)).size ∧
      (∃ bytes, load bytes = .ok (chain (2 ^ 32), .invalid)) ∧
      Checked.extract (chain (2 ^ 32)) .invalid = .error .full := by
  have hfirst : (chain (2 ^ 32)).ChildrenFirst := childrenFirst_chain le_rfl
  have hmax : NodeId.invalid.index = 2 ^ 32 - 1 := rfl
  have hroot : NodeId.invalid.index < (chain (2 ^ 32)).size := by
    rw [size_chain, hmax]
    omega
  have hself : (chain (2 ^ 32)).Extracts .invalid (chain (2 ^ 32)) .invalid := by
    have hlast : NodeId.invalid.index + 1 = (chain (2 ^ 32)).size := by
      rw [size_chain, hmax]
      omega
    refine extracts_self hfirst hlast fun i hi => ?_
    rw [size_chain] at hi
    exact under_chain le_rfl (by rw [hmax]; omega) (by rw [hmax]; omega)
  refine ⟨hfirst, hroot, ?_, Checked.extract_eq_full hfirst hroot hself (size_chain _).ge⟩
  have hfits : ∀ node ∈ (chain (2 ^ 32)).nodes, node.Fits := by
    intro node hnode
    obtain ⟨i, hi⟩ := Array.getElem?_of_mem hnode
    obtain ⟨_, rfl⟩ := exists_link_of_mem_chain hi
    cases i <;> exact trivial
  have hsize : (chain (2 ^ 32)).size < 2 ^ 64 := by
    rw [size_chain]
    omega
  exact ⟨_, load_dump hsize hfits hfirst hroot ⟨_, forall₂_bytes _, rfl⟩ []⟩

end Store

end PipeSheet.Formula
