import Mathlib.Data.Nat.Count
import Mathlib.Logic.Relation
import PipeSheet.Formula.Extract
import PipeSheet.Proofs.Formula.Block
import PipeSheet.Proofs.Formula.Layout
/-!
# PipeSheet.Proofs.Formula.Extract

**A formula is copied with all of its nodes, and with no others.**

The marks are the nodes under the root (`marked_marks`): going down from the root, every mark is
passed on to the children, which lie below. The copy of a marked node has as its index the number of
marked nodes before it, so copies keep the order of their nodes, and children stay before their
parents.

What is copied need not be what was read: a store that comes from bytes may share nodes. Of a
formula that was read, the copy is what reading it into an empty store gives, wherever it stood and
whatever else was in the store.

* `Store.Under`: one node is under another;
* `IsCopy`: the kept nodes below an index, with their children counted anew;
* `Store.exists_extract`: what is extracted;
* `extract?_of_read`: what is extracted of a formula that was read.
-/

namespace PipeSheet.Formula

/-! ### Nodes under a node -/

namespace Store

variable {s : Store} {i j : Nat}

theorem exists_getElem? (h : i < s.size) : ∃ node, s.nodes[i]? = some node :=
  ⟨_, Array.getElem?_eq_getElem h⟩

/-- The node at an index has a child at the other one. -/
def IsChild (s : Store) (i j : Nat) : Prop :=
  ∃ node, s.nodes[i]? = some node ∧ ∃ child ∈ node.children, child.index = j

/-- Going from the node at an index to children leads to the other one. -/
def Under (s : Store) : Nat → Nat → Prop :=
  Relation.ReflTransGen s.IsChild

theorem ChildrenFirst.lt_of_isChild (h : s.ChildrenFirst) (hchild : s.IsChild i j) : j < i := by
  obtain ⟨node, hnode, child, hmem, rfl⟩ := hchild
  exact h i node hnode child hmem

theorem ChildrenFirst.le_of_under (h : s.ChildrenFirst) (hunder : s.Under i j) : j ≤ i := by
  induction hunder with
  | refl => exact Nat.le_refl _
  | tail _ hchild ih => exact Nat.le_trans (Nat.le_of_lt (h.lt_of_isChild hchild)) ih

/-- The nodes of a formula are under its root. -/
theorem Layout.under {id : NodeId} {tree : Tree} {ids : List NodeId} (h : s.Layout id tree ids) :
    ∀ x ∈ ids, s.Under id.index x.index := by
  induction h with
  | @number id v hnode =>
      intro x hx
      rw [List.mem_singleton.1 hx]
      exact .refl
  | @ref id q hnode =>
      intro x hx
      rw [List.mem_singleton.1 hx]
      exact .refl
  | @plus id lhs rhs l r ls rs hnode _ _ _ _ ihl ihr =>
      intro x hx
      rcases List.mem_cons.1 hx with rfl | hx
      · exact .refl
      · rcases List.mem_append.1 hx with hx | hx
        · exact .head ⟨_, hnode, lhs, List.mem_pair.2 (.inl rfl), rfl⟩ (ihl x hx)
        · exact .head ⟨_, hnode, rhs, List.mem_pair.2 (.inr rfl), rfl⟩ (ihr x hx)

end Store

/-! ### Marks -/

/-- The index has a mark. -/
def Marked (marked : Array Bool) (i : Nat) : Prop :=
  marked[i]? = some true

instance (marked : Array Bool) : DecidablePred (Marked marked) :=
  fun i => inferInstanceAs (Decidable (marked[i]? = some true))

theorem not_marked_replicate (size i : Nat) : ¬ Marked (Array.replicate size false) i := by
  intro h
  rw [Marked, Array.getElem?_replicate] at h
  split at h <;> cases h

section Marks

variable {s : Store} {marked : Array Bool} {root : NodeId} {i j : Nat}

@[simp] theorem size_mark (marked : Array Bool) (id : NodeId) :
    (mark marked id).size = marked.size := by
  simp [mark]

@[simp] theorem size_foldl_mark (children : List NodeId) (marked : Array Bool) :
    (children.foldl mark marked).size = marked.size := by
  induction children generalizing marked with
  | nil => rfl
  | cons child children ih => rw [List.foldl_cons, ih, size_mark]

theorem marked_mark {id : NodeId} :
    Marked (mark marked id) j ↔ Marked marked j ∨ id.index = j ∧ j < marked.size := by
  rw [Marked, Marked, mark, Array.getElem?_setIfInBounds]
  by_cases hj : id.index = j
  · subst hj
    by_cases hlt : id.index < marked.size
    · simp [hlt]
    · simp [hlt]
  · simp [hj]

theorem marked_foldl_mark {children : List NodeId} :
    Marked (children.foldl mark marked) j ↔
      Marked marked j ∨ (∃ child ∈ children, child.index = j) ∧ j < marked.size := by
  induction children generalizing marked with
  | nil => simp
  | cons child children ih =>
      rw [List.foldl_cons, ih, marked_mark, size_mark, or_assoc, ← or_and_right]
      simp only [List.mem_cons, exists_eq_or_imp]

/-- Marks are passed on to everything under a marked node. -/
theorem marked_markBelow (h : s.ChildrenFirst) {count : Nat} (hcount : count ≤ marked.size)
    (hsize : marked.size ≤ s.size) :
    Marked (markBelow s.nodes count marked) j ↔
      Marked marked j ∨ ∃ i < count, Marked marked i ∧ s.Under i j := by
  induction count generalizing marked with
  | zero => simp [markBelow]
  | succ count ih =>
      obtain ⟨node, hnode⟩ := Store.exists_getElem? (Nat.lt_of_lt_of_le hcount hsize)
      by_cases hmarked : Marked marked count
      · have hstep : markBelow s.nodes (count + 1) marked =
            markBelow s.nodes count (node.children.foldl mark marked) := by
          rw [markBelow, hmarked, hnode]
        have hchild : ∀ {k}, (∃ child ∈ node.children, child.index = k) → s.IsChild count k :=
          fun ⟨child, hmem, hk⟩ => ⟨node, hnode, child, hmem, hk⟩
        rw [hstep, ih (by rw [size_foldl_mark]; omega) (by rwa [size_foldl_mark])]
        constructor
        · rintro (hj | ⟨i, hi, hmark, hunder⟩)
          · rcases marked_foldl_mark.1 hj with hj | ⟨hj, _⟩
            · exact .inl hj
            · exact .inr ⟨count, Nat.lt_succ_self _, hmarked, .single (hchild hj)⟩
          · rcases marked_foldl_mark.1 hmark with hmark | ⟨hi', _⟩
            · exact .inr ⟨i, Nat.lt_succ_of_lt hi, hmark, hunder⟩
            · exact .inr ⟨count, Nat.lt_succ_self _, hmarked, .head (hchild hi') hunder⟩
        · rintro (hj | ⟨i, hi, hmark, hunder⟩)
          · exact .inl (marked_foldl_mark.2 (.inl hj))
          · rcases Nat.lt_succ_iff_lt_or_eq.1 hi with hi | rfl
            · exact .inr ⟨i, hi, marked_foldl_mark.2 (.inl hmark), hunder⟩
            · -- From this node on, either nothing is left to go, or a child is next.
              rcases Relation.ReflTransGen.cases_head hunder with rfl | ⟨k, hk, hunder⟩
              · exact .inl (marked_foldl_mark.2 (.inl hmarked))
              · have hlt := h.lt_of_isChild hk
                obtain ⟨node', hnode', hmem⟩ := hk
                obtain rfl : node = node' := Option.some.inj (hnode.symm.trans hnode')
                exact .inr ⟨k, hlt, marked_foldl_mark.2 (.inr ⟨hmem, by omega⟩), hunder⟩
      · have hstep : markBelow s.nodes (count + 1) marked = markBelow s.nodes count marked := by
          rw [markBelow]
          split
          · next hmark _ => exact absurd hmark hmarked
          · rfl
        rw [hstep, ih (by omega) hsize]
        refine or_congr_right ⟨?_, ?_⟩
        · rintro ⟨i, hi, hmark, hunder⟩
          exact ⟨i, Nat.lt_succ_of_lt hi, hmark, hunder⟩
        · rintro ⟨i, hi, hmark, hunder⟩
          rcases Nat.lt_succ_iff_lt_or_eq.1 hi with hi | rfl
          · exact ⟨i, hi, hmark, hunder⟩
          · exact absurd hmark hmarked

@[simp] theorem size_markBelow (nodes : Array Node) (count : Nat) (marked : Array Bool) :
    (markBelow nodes count marked).size = marked.size := by
  induction count generalizing marked with
  | zero => rfl
  | succ count ih =>
      rw [markBelow]
      split
      · rw [ih, size_foldl_mark]
      · rw [ih]

@[simp] theorem size_marks (s : Store) (root : NodeId) : (marks s root).size = root.index + 1 := by
  simp [marks]

/-- The nodes under a root are marked, and no others. -/
theorem marked_marks (h : s.ChildrenFirst) (hroot : root.index < s.size) :
    Marked (marks s root) j ↔ s.Under root.index j := by
  have hstart : ∀ i, Marked (mark (Array.replicate (root.index + 1) false) root) i ↔
      root.index = i := by
    intro i
    rw [marked_mark, Array.size_replicate, or_iff_right (not_marked_replicate _ _)]
    constructor
    · exact fun hi => hi.1
    · rintro rfl
      exact ⟨rfl, Nat.lt_succ_self _⟩
  rw [marks, marked_markBelow h (by simp) (by rw [size_mark, Array.size_replicate]; exact hroot)]
  simp only [hstart]
  constructor
  · rintro (rfl | ⟨i, _, rfl, hunder⟩)
    · exact .refl
    · exact hunder
  · intro hunder
    exact .inr ⟨root.index, Nat.lt_succ_self _, rfl, hunder⟩

theorem lt_size_of_marked (h : s.ChildrenFirst) (hroot : root.index < s.size)
    (hi : Marked (marks s root) i) : i < s.size :=
  Nat.lt_of_le_of_lt (h.le_of_under ((marked_marks h hroot).1 hi)) hroot

theorem marked_of_isChild (h : s.ChildrenFirst) (hroot : root.index < s.size)
    (hi : Marked (marks s root) i) (hchild : s.IsChild i j) : Marked (marks s root) j :=
  (marked_marks h hroot).2 (((marked_marks h hroot).1 hi).tail hchild)

end Marks

/-! ### Copies -/

section Copies

variable {s out out' : Store} {p : Nat → Prop} [DecidablePred p] {k : Nat} {node : Node}

/-- The node with each child named by the number of kept nodes before it. -/
def Node.recounted (p : Nat → Prop) [DecidablePred p] : Node → Node
  | .plus lhs rhs => .plus (.ofIndex (Nat.count p lhs.index)) (.ofIndex (Nat.count p rhs.index))
  | leaf => leaf

/-- One store consists of the nodes of the other one that are kept, of those below an index. -/
structure IsCopy (s : Store) (p : Nat → Prop) [DecidablePred p] (k : Nat) (out : Store) : Prop where
  size_eq : out.size = Nat.count p k
  node : ∀ i node, p i → i < k → s.nodes[i]? = some node →
    out.nodes[Nat.count p i]? = some (node.recounted p)

theorem index_recounted (p : Nat → Prop) [DecidablePred p] (id : NodeId) :
    (NodeId.ofIndex (Nat.count p id.index)).index = Nat.count p id.index :=
  NodeId.index_ofIndex (Nat.lt_of_le_of_lt (Nat.count_le p) id.index_lt)

theorem Node.mem_children_recounted {child : NodeId} (h : child ∈ (node.recounted p).children) :
    ∃ old ∈ node.children, child.index = Nat.count p old.index := by
  cases node with
  | number v => cases h
  | ref q => cases h
  | plus lhs rhs =>
      rcases List.mem_pair.1 h with rfl | rfl
      · exact ⟨lhs, List.mem_pair.2 (.inl rfl), index_recounted p lhs⟩
      · exact ⟨rhs, List.mem_pair.2 (.inr rfl), index_recounted p rhs⟩

/-- Every number below the count of kept indices counts the ones before some kept index. -/
theorem exists_count_eq {i : Nat} (h : i < Nat.count p k) : ∃ j < k, p j ∧ Nat.count p j = i := by
  induction k with
  | zero => simp at h
  | succ k ih =>
      by_cases hi : i < Nat.count p k
      · obtain ⟨j, hj, hpj, hcount⟩ := ih hi
        exact ⟨j, Nat.lt_succ_of_lt hj, hpj, hcount⟩
      · rw [Nat.count_succ] at h
        split at h
        · next hp => exact ⟨k, Nat.lt_succ_self _, hp, by omega⟩
        · omega

namespace IsCopy

theorem zero (s : Store) (p : Nat → Prop) [DecidablePred p] : IsCopy s p 0 .empty :=
  ⟨rfl, fun i _ _ hi => absurd hi (Nat.not_lt_zero i)⟩

theorem skip (h : IsCopy s p k out) (hk : ¬ p k) : IsCopy s p (k + 1) out := by
  refine ⟨by rw [h.size_eq, Nat.count_succ, if_neg hk, Nat.add_zero], ?_⟩
  intro i node hi hlt hnode
  rcases Nat.lt_succ_iff_lt_or_eq.1 hlt with hlt | rfl
  · exact h.node i node hi hlt hnode
  · exact absurd hi hk

theorem push (h : IsCopy s p k out) (hk : p k) (hnode : s.nodes[k]? = some node) :
    IsCopy s p (k + 1) (out.push (node.recounted p)).2 := by
  refine ⟨by rw [Store.size_push, h.size_eq, Nat.count_succ, if_pos hk], ?_⟩
  intro i node' hi hlt hnode'
  rcases Nat.lt_succ_iff_lt_or_eq.1 hlt with hlt | rfl
  · exact (Store.Extends.push out _).getElem?_eq (h.node i node' hi hlt hnode')
  · obtain rfl : node = node' := Option.some.inj (hnode.symm.trans hnode')
    rw [← h.size_eq, Store.nodes_push]
    exact Array.getElem?_push_size

/-- The node at an index is the copy of a kept one. -/
theorem exists_node (h : IsCopy s p k out) (hkept : ∀ i, p i → i < s.size) {i : Nat}
    (hi : i < out.size) : ∃ j node, p j ∧ s.nodes[j]? = some node ∧ Nat.count p j = i ∧
      out.nodes[i]? = some (node.recounted p) := by
  rw [h.size_eq] at hi
  obtain ⟨j, hj, hpj, rfl⟩ := exists_count_eq hi
  obtain ⟨node, hnode⟩ := Store.exists_getElem? (hkept j hpj)
  exact ⟨j, node, hpj, hnode, rfl, h.node j node hpj hj hnode⟩

theorem unique (h : IsCopy s p k out) (h' : IsCopy s p k out') (hkept : ∀ i, p i → i < s.size) :
    out = out' := by
  have hnodes : out.nodes = out'.nodes := by
    refine Array.ext_getElem? fun i => ?_
    by_cases hi : i < Nat.count p k
    · obtain ⟨j, hj, hpj, rfl⟩ := exists_count_eq hi
      obtain ⟨node, hnode⟩ := Store.exists_getElem? (hkept j hpj)
      rw [h.node j node hpj hj hnode, h'.node j node hpj hj hnode]
    · have hsize : out.nodes.size = Nat.count p k := h.size_eq
      have hsize' : out'.nodes.size = Nat.count p k := h'.size_eq
      rw [Array.getElem?_eq_none (by omega), Array.getElem?_eq_none (by omega)]
  cases out
  cases out'
  exact congrArg Store.mk hnodes

/-- The copies of children stand before the copy of their parent. -/
theorem childrenFirst (h : IsCopy s p k out) (hfirst : s.ChildrenFirst)
    (hkept : ∀ i, p i → i < s.size) (hclosed : ∀ i j, p i → s.IsChild i j → p j) :
    out.ChildrenFirst := by
  intro i node hnode child hchild
  have hi : i < out.size := (Array.getElem?_eq_some_iff.1 hnode).1
  obtain ⟨j, old, hpj, hold, rfl, hcopy⟩ := h.exists_node hkept hi
  obtain rfl : node = old.recounted p := Option.some.inj (hnode.symm.trans hcopy)
  obtain ⟨child', hchild', hindex⟩ := Node.mem_children_recounted hchild
  rw [hindex]
  exact Nat.count_strict_mono (hclosed j _ hpj ⟨old, hold, child', hchild', rfl⟩)
    (hfirst j old hold child' hchild')

end IsCopy

/-! ### Copying -/

/-- Each kept node below an index is named by its copy. -/
def Names (p : Nat → Prop) [DecidablePred p] (k : Nat) (copies : Array NodeId) : Prop :=
  ∀ i, p i → i < k → copies[i]? = some (.ofIndex (Nat.count p i))

theorem Names.zero (p : Nat → Prop) [DecidablePred p] (copies : Array NodeId) : Names p 0 copies :=
  fun i _ hi => absurd hi (Nat.not_lt_zero i)

theorem Names.renamed_eq {copies : Array NodeId} (h : Names p k copies)
    (hchildren : ∀ child ∈ node.children, p child.index ∧ child.index < k) :
    node.renamed copies = node.recounted p := by
  have hname : ∀ child ∈ node.children,
      copies.getD child.index .invalid = .ofIndex (Nat.count p child.index) := by
    intro child hchild
    rw [Array.getD_eq_getD_getElem?,
      h child.index (hchildren child hchild).1 (hchildren child hchild).2]
    rfl
  cases node with
  | number v => rfl
  | ref q => rfl
  | plus lhs rhs =>
      rw [Node.renamed, hname lhs (List.mem_pair.2 (.inl rfl)),
        hname rhs (List.mem_pair.2 (.inr rfl))]
      rfl

/-- Copying goes through the nodes from an index on and keeps what is to be kept. -/
theorem copyMarked_spec (hfirst : s.ChildrenFirst) (hclosed : ∀ i j, p i → s.IsChild i j → p j)
    {copies : Array NodeId} {rest : List (Node × Bool)}
    (hrest : ∀ i node keep, rest[i]? = some (node, keep) →
      s.nodes[k + i]? = some node ∧ (keep = true ↔ p (k + i)))
    (hsize : copies.size = k) (hnames : Names p k copies) (hcopy : IsCopy s p k out) :
    Names p (k + rest.length) (copyMarked copies out rest).1 ∧
      IsCopy s p (k + rest.length) (copyMarked copies out rest).2 := by
  induction rest generalizing k copies out with
  | nil => exact ⟨hnames, hcopy⟩
  | cons head rest ih =>
      obtain ⟨node, keep⟩ := head
      obtain ⟨hnode, hkeep⟩ := hrest 0 node keep rfl
      rw [Nat.add_zero] at hnode hkeep
      have htail : ∀ i node keep, rest[i]? = some (node, keep) →
          s.nodes[k + 1 + i]? = some node ∧ (keep = true ↔ p (k + 1 + i)) := by
        intro i node keep hi
        rw [Nat.add_right_comm]
        exact hrest (i + 1) node keep hi
      -- All names stay, and the one at the end is looked at only if the node is kept.
      have hpush : ∀ id, (p k → id = .ofIndex (Nat.count p k)) →
          Names p (k + 1) (copies.push id) := by
        intro id hid i hi hlt
        rw [Array.getElem?_push, hsize]
        by_cases heq : i = k
        · subst heq
          rw [if_pos rfl, hid hi]
        · rw [if_neg heq]
          exact hnames i hi (by omega)
      have hcount : k + (rest.length + 1) = k + 1 + rest.length := by omega
      rw [List.length_cons, hcount]
      cases keep with
      | false =>
          have hk : ¬ p k := fun hp => Bool.false_ne_true (hkeep.2 hp)
          refine ih htail (by simp [hsize]) (hpush .invalid fun hp => absurd hp hk) (hcopy.skip hk)
      | true =>
          have hk : p k := hkeep.1 rfl
          have hrenamed : node.renamed copies = node.recounted p :=
            hnames.renamed_eq fun child hchild =>
              ⟨hclosed k _ hk ⟨node, hnode, child, hchild, rfl⟩, hfirst k node hnode child hchild⟩
          rw [copyMarked, hrenamed]
          exact ih htail (by simp [hsize]) (hpush _ fun _ => congrArg _ hcopy.size_eq)
            (hcopy.push hk hnode)

end Copies

/-! ### Extracting -/

namespace Store

variable {s out : Store} {root r : NodeId}

/-- The store consists of copies of the nodes under a root, and the root is the last one. -/
structure Extracts (s : Store) (root : NodeId) (out : Store) (r : NodeId) : Prop where
  copy : IsCopy s (Marked (marks s root)) (root.index + 1) out
  root_eq : r = .ofIndex (Nat.count (Marked (marks s root)) root.index)

namespace Extracts

/-- No node is copied twice. -/
theorem size_le (h : s.Extracts root out r) : out.size ≤ root.index + 1 :=
  h.copy.size_eq ▸ Nat.count_le _

/-- The root is the last node. -/
theorem index_root (h : s.Extracts root out r) (hfirst : s.ChildrenFirst)
    (hroot : root.index < s.size) : r.index + 1 = out.size := by
  have hmarked : Marked (marks s root) root.index := (marked_marks hfirst hroot).2 .refl
  rw [h.root_eq, index_recounted, h.copy.size_eq, Nat.count_succ, if_pos hmarked]

theorem childrenFirst (h : s.Extracts root out r) (hfirst : s.ChildrenFirst)
    (hroot : root.index < s.size) : out.ChildrenFirst := by
  exact h.copy.childrenFirst hfirst (fun i hi => lt_size_of_marked hfirst hroot hi)
    fun i j hi hchild => marked_of_isChild hfirst hroot hi hchild

theorem unique {out' : Store} {r' : NodeId} (h : s.Extracts root out r)
    (h' : s.Extracts root out' r') (hfirst : s.ChildrenFirst) (hroot : root.index < s.size) :
    out = out' ∧ r = r' := by
  exact ⟨h.copy.unique h'.copy fun i hi => lt_size_of_marked hfirst hroot hi,
    h.root_eq.trans h'.root_eq.symm⟩

end Extracts

/-- Every node of a store in which children stand first can be extracted. -/
theorem exists_extract (hfirst : s.ChildrenFirst) (hroot : root.index < s.size) :
    ∃ out r, s.extract? root = some (out, r) ∧ s.Extracts root out r := by
  obtain ⟨node, hget⟩ : ∃ node, s.get? root = some node := exists_getElem? hroot
  have hclosed : ∀ i j, Marked (marks s root) i → s.IsChild i j → Marked (marks s root) j :=
    fun i j hi hchild => marked_of_isChild hfirst hroot hi hchild
  have hrest : ∀ i node keep, (s.nodes.toList.zip (marks s root).toList)[i]? = some (node, keep) →
      s.nodes[0 + i]? = some node ∧ (keep = true ↔ Marked (marks s root) (0 + i)) := by
    intro i node keep hi
    rw [List.getElem?_zip_eq_some, Array.getElem?_toList, Array.getElem?_toList] at hi
    rw [Nat.zero_add, Marked, hi.2, Option.some_inj]
    exact ⟨hi.1, Iff.rfl⟩
  have hlength : (s.nodes.toList.zip (marks s root).toList).length = root.index + 1 := by
    rw [List.length_zip, Array.length_toList, Array.length_toList, size_marks]
    exact Nat.min_eq_right hroot
  obtain ⟨hnames, hcopy⟩ :=
    copyMarked_spec hfirst hclosed hrest Array.size_empty (.zero _ _) (.zero s _)
  rw [hlength, Nat.zero_add] at hnames hcopy
  have hname := hnames root.index ((marked_marks hfirst hroot).2 .refl) (Nat.lt_succ_self _)
  refine ⟨_, _, ?_, hcopy, rfl⟩
  rw [extract?, hget]
  dsimp only
  rw [Array.getD_eq_getD_getElem?, hname]
  rfl

end Store

/-! ### Formulas that were read -/

section Read

variable {s before after : Store} {root : NodeId} {source : List Char} {operands : List Operand}
  {first length i : Nat} {p : Nat → Prop} [DecidablePred p] {node : Node}

/-- Among the indices from a first one on, those before one are as many as it is behind the
first. -/
theorem count_of_interval (hp : ∀ j, p j ↔ first ≤ j ∧ j < first + length) (hi : i ≤ length) :
    Nat.count p (first + i) = i := by
  have hbefore : Nat.count p first = 0 := by
    rw [Nat.count_iff_forall_not]
    intro j hj hpj
    have := (hp j).1 hpj
    omega
  have hinside : Nat.count (fun j => p (first + j)) i = i := by
    rw [Nat.count_iff_forall]
    intro j hj
    exact (hp _).2 (by omega)
  rw [Nat.count_add, hbefore, hinside, Nat.zero_add]

/-- A block whose nodes are kept, and no others, becomes the block of the same operands that begins
at zero. -/
theorem getElem?_block_recounted
    (hp : ∀ j, p j ↔ first ≤ j ∧ j < first + (block first operands).length)
    (hsize : first + (block first operands).length ≤ 2 ^ 32)
    (hnode : (block first operands)[i]? = some node) :
    (block 0 operands)[i]? = some (node.recounted p) := by
  by_cases hi : i < operands.length
  · rw [getElem?_block_of_lt hi] at hnode ⊢
    rw [hnode]
    obtain ⟨o, _, rfl⟩ := Option.map_eq_some_iff.1 hnode
    cases o <;> rfl
  · obtain ⟨j, rfl⟩ := Nat.exists_eq_add_of_le (Nat.le_of_not_lt hi)
    have hlength := length_block first operands
    have hj : operands.length + j < (block first operands).length :=
      (List.getElem?_eq_some_iff.1 hnode).1
    have hlt : j < operands.length - 1 := by omega
    rw [getElem?_block_sum hlt, Option.some.injEq] at hnode
    subst hnode
    have hcount : ∀ m, m < (block first operands).length →
        Nat.count p (NodeId.ofIndex (first + m)).index = m := by
      intro m hm
      rw [NodeId.index_ofIndex (by omega)]
      exact count_of_interval hp (Nat.le_of_lt hm)
    have hlhs : first + operands.length - 2 - j = first + (operands.length - 2 - j) := by omega
    have hrhs : first + operands.length - 1 + j = first + (operands.length - 1 + j) := by omega
    rw [getElem?_block_sum hlt, Node.recounted, hlhs, hrhs, hcount _ (by omega),
      hcount _ (by omega), Nat.zero_add]

/-- Nodes that were added to a store are still there later. -/
theorem getElem?_of_extends_append {nodes : List Node} (hext : (before.append nodes).Extends s)
    (hi : i < nodes.length) : s.nodes[before.size + i]? = nodes[i]? := by
  have hthere := List.getElem?_eq_getElem hi
  rw [hthere]
  exact hext.getElem?_eq ((Store.getElem?_append_right before nodes i).trans hthere)

/-- Under the root of a formula that was read are the nodes that were added for it. -/
theorem under_iff_of_read (hread : read source before = (.ok root, after))
    (hext : after.Extends s) (hsize : after.size ≤ 2 ^ 32) {j : Nat} :
    s.Under root.index j ↔ before.size ≤ j ∧ j < after.size := by
  have hroot := index_root_of_read hread hsize
  constructor
  · intro hunder
    obtain ⟨operands, _, hne, _, rfl⟩ := exists_block_of_read hread
    have hpos := List.length_pos_iff.2 hne
    rw [Store.size_append] at hroot hsize ⊢
    have hlength := length_block before.size operands
    induction hunder with
    | refl => omega
    | @tail b c _ hc ih =>
        -- The node whose child is reached is in the block, so the child is.
        obtain ⟨m, rfl⟩ := Nat.exists_eq_add_of_le ih.1
        obtain ⟨node, hnode, child, hchild, rfl⟩ := hc
        have hblock := (getElem?_of_extends_append hext (by omega)).symm.trans hnode
        have hinside := children_block hsize hblock child hchild
        omega
  · rintro ⟨hle, hlt⟩
    obtain ⟨tree, ids, hlayout, hoccupies⟩ := exists_layout_of_read hread hsize
    have hmem : j ∈ List.range' before.size (after.size - before.size) :=
      List.mem_range'_1.2 ⟨hle, by omega⟩
    obtain ⟨id, hid, rfl⟩ := List.mem_map.1 (hoccupies.mem_iff.2 hmem)
    exact (hlayout.extends hext).under id hid

/-- What is extracted of a formula that was read is what reading it alone gives. -/
theorem extract?_of_read (hread : read source before = (.ok root, after))
    (hext : after.Extends s) (hfirst : s.ChildrenFirst) (hsize : after.size ≤ 2 ^ 32) :
    ∃ out r, read source .empty = (.ok r, out) ∧ s.extract? root = some (out, r) := by
  have hroot := index_root_of_read hread hsize
  have hin : root.index < s.size := Nat.lt_of_lt_of_le (by omega) hext.size_le
  obtain ⟨out, r, hextract, hspec⟩ := Store.exists_extract hfirst hin
  have hmarked : ∀ j, Marked (marks s root) j ↔ before.size ≤ j ∧ j < after.size := fun j =>
    (marked_marks hfirst hin).trans (under_iff_of_read hread hext hsize)
  obtain ⟨operands, hoperands, hne, hrooteq, rfl⟩ := exists_block_of_read hread
  have halone : read source .empty =
      (.ok (.ofIndex (2 * operands.length - 2)), Store.empty.append (block 0 operands)) := by
    rw [read_eq_append, hoperands]
    simp
  have hpos := List.length_pos_iff.2 hne
  rw [Store.size_append] at hsize hroot
  simp only [Store.size_append] at hmarked
  have hlength := length_block before.size operands
  have hcount : Nat.count (Marked (marks s root)) (root.index + 1) = 2 * operands.length - 1 := by
    rw [hroot, count_of_interval hmarked (Nat.le_refl _)]
    omega
  have hlast : Nat.count (Marked (marks s root)) root.index = 2 * operands.length - 2 := by
    have hindex : root.index = before.size + (2 * operands.length - 2) := by omega
    rw [hindex, count_of_interval hmarked (by omega)]
  have hblock : s.Extracts root (Store.empty.append (block 0 operands))
      (.ofIndex (2 * operands.length - 2)) := by
    refine ⟨⟨?_, fun i node hi _ hnode => ?_⟩, by rw [hlast]⟩
    · rw [hcount, Store.size_append, length_block, Store.size_empty]
      omega
    · obtain ⟨hle, hlt⟩ := (hmarked i).1 hi
      obtain ⟨j, rfl⟩ := Nat.exists_eq_add_of_le hle
      have hj : j < (block before.size operands).length := Nat.lt_of_add_lt_add_left hlt
      have hold := (getElem?_of_extends_append hext hj).symm.trans hnode
      have hempty := Store.getElem?_append_right .empty (block 0 operands) j
      rw [Store.size_empty, Nat.zero_add] at hempty
      rw [count_of_interval hmarked (Nat.le_of_lt hj), hempty]
      exact getElem?_block_recounted hmarked hsize hold
  obtain ⟨rfl, rfl⟩ := hspec.unique hblock hfirst hin
  exact ⟨_, _, halone, hextract⟩

end Read

end PipeSheet.Formula
