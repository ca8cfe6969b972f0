import PipeSheet.Formula.Store
import PipeSheet.Number.Printer
/-!
# PipeSheet.Formula.Tree

**The tree view of a node: what a formula says, wherever its nodes lie.**

Everything a formula means is a function of its tree. Two stores may hold one formula at different
ids, among different neighbours; the tree is the same.

* `Tree`: a number, a reference or a sum;
* `Store.tree?`: the tree under an id. It follows children only to earlier nodes, so it is defined
  for every id of a store in which children stand first;
* `Tree.render`: the text of a tree, every sum in parentheses.
-/

namespace PipeSheet.Formula

/-- A formula. -/
inductive Tree where
  | number (value : Float)
  | ref (target : Position)
  | plus (lhs rhs : Tree)
  deriving DecidableEq

/-- The tree of the node at an index, if every child on the way stands before its parent. -/
def treeAt? (nodes : Array Node) (i : Nat) : Option Tree :=
  match nodes[i]? with
  | none => none
  | some (.number value) => some (.number value)
  | some (.ref target) => some (.ref target)
  | some (.plus lhs rhs) =>
    if _ : lhs.index < i ∧ rhs.index < i then
      match treeAt? nodes lhs.index, treeAt? nodes rhs.index with
      | some l, some r => some (.plus l r)
      | _, _ => none
    else none
termination_by i

/-- The tree under an id. -/
def Store.tree? (s : Store) (id : NodeId) : Option Tree :=
  treeAt? s.nodes id.index

/-- Where children stand first, every node has a tree. -/
theorem Store.ChildrenFirst.isSome_treeAt? {s : Store} (h : s.ChildrenFirst) {i : Nat}
    (hi : i < s.size) : (treeAt? s.nodes i).isSome := by
  induction i using Nat.strongRecOn with
  | ind i ih =>
    obtain ⟨node, hnode⟩ : ∃ node, s.nodes[i]? = some node := ⟨_, Array.getElem?_eq_getElem hi⟩
    rw [treeAt?, hnode]
    cases node with
    | number value => rfl
    | ref target => rfl
    | plus lhs rhs =>
      have hl : lhs.index < i := h i _ hnode lhs (by simp [Node.children])
      have hr : rhs.index < i := h i _ hnode rhs (by simp [Node.children])
      obtain ⟨l, hl'⟩ := Option.isSome_iff_exists.1 (ih lhs.index hl (Nat.lt_trans hl hi))
      obtain ⟨r, hr'⟩ := Option.isSome_iff_exists.1 (ih rhs.index hr (Nat.lt_trans hr hi))
      simp [hl, hr, hl', hr']

theorem Store.ChildrenFirst.isSome_tree? {s : Store} (h : s.ChildrenFirst) {id : NodeId}
    (hi : id.index < s.size) : (s.tree? id).isSome :=
  h.isSome_treeAt? hi

namespace Tree

/-- The number of nodes of a tree. -/
def size : Tree → Nat
  | number _ => 1
  | ref _ => 1
  | plus lhs rhs => lhs.size + rhs.size + 1

/-- The numbers and references of a tree, from left to right. -/
def leaves : Tree → List Tree
  | plus lhs rhs => lhs.leaves ++ rhs.leaves
  | leaf => [leaf]

/-- Writes a tree in front of a text. -/
def renderBefore : Tree → List Char → List Char
  | number value, rest => Number.plain value ++ rest
  | ref target, rest => target.label ++ rest
  | plus lhs rhs, rest =>
    '(' :: lhs.renderBefore (' ' :: '+' :: ' ' :: rhs.renderBefore (')' :: rest))

/-- The text of a tree: numbers in their shortest form, references by their labels, and every sum in
parentheses. -/
def render (t : Tree) : List Char :=
  t.renderBefore []

theorem renderBefore_eq (t : Tree) (rest : List Char) : t.renderBefore rest = t.render ++ rest := by
  induction t generalizing rest with
  | number value => simp [render, renderBefore]
  | ref target => simp [render, renderBefore]
  | plus lhs rhs ihl ihr =>
    simp only [render, renderBefore]
    rw [ihl, ihr, ihl (' ' :: '+' :: ' ' :: rhs.renderBefore _), ihr [')']]
    simp

@[simp] theorem render_number (value : Float) : (number value).render = Number.plain value := by
  simp [render, renderBefore]

@[simp] theorem render_ref (target : Position) : (ref target).render = target.label := by
  simp [render, renderBefore]

@[simp] theorem render_plus (lhs rhs : Tree) :
    (plus lhs rhs).render = '(' :: lhs.render ++ [' ', '+', ' '] ++ rhs.render ++ [')'] := by
  rw [render, renderBefore, renderBefore_eq, renderBefore_eq]
  simp

end Tree

/-- The text under an id. -/
def Store.render? (s : Store) (id : NodeId) : Option (List Char) :=
  (s.tree? id).map Tree.render

end PipeSheet.Formula
