import PipeSheet.Position
/-!
# PipeSheet.Formula.Store

**All formulas of a table live in one append-only list of nodes.**

A node names its children by their ids. Nodes are added at the end and never removed or changed, so
an id, once handed out, always denotes the same node, and the children of a node stand before it.

* `NodeId`: a 32-bit index; the largest one denotes no node;
* `Node`: a number, a reference or a sum of two nodes;
* `Store`, `Store.push`, `Store.get?`: the list and its two operations.
-/

namespace PipeSheet.Formula

/-- The index of a node in its store. -/
structure NodeId where
  word : UInt32
  deriving DecidableEq, Repr

namespace NodeId

/-- The id that denotes no node. -/
def invalid : NodeId := ⟨UInt32.ofNat (2 ^ 32 - 1)⟩

instance : Inhabited NodeId := ⟨invalid⟩

/-- The index as a number. -/
def index (id : NodeId) : Nat := id.word.toNat

/-- The id of an index; a store never holds as many nodes as an id cannot count. -/
def ofIndex (n : Nat) : NodeId := ⟨UInt32.ofNat n⟩

/-- Whether an id may denote a node. -/
def isValid (id : NodeId) : Bool := id ≠ invalid

/-- The id as a value of its type. -/
def detail (id : NodeId) : String :=
  if id.isValid then "ExprId(" ++ toString id.index ++ ")" else "ExprId::INVALID"

/-- What is said of an id that a store of `size` nodes does not have. -/
def outOfRange (id : NodeId) (size : Nat) : String :=
  id.detail ++ " out of range (arena holds " ++ toString size ++ " nodes)"

theorem index_lt (id : NodeId) : id.index < 2 ^ 32 := id.word.toNat_lt

@[simp] theorem index_ofIndex {n : Nat} (h : n < 2 ^ 32) : (ofIndex n).index = n :=
  UInt32.toNat_ofNat_of_lt' (by simpa [UInt32.size] using h)

@[simp] theorem ofIndex_index (id : NodeId) : ofIndex id.index = id := by
  simp [ofIndex, index]

theorem ext_index {a b : NodeId} (h : a.index = b.index) : a = b := by
  rw [← ofIndex_index a, ← ofIndex_index b, h]

end NodeId

/-- One node of a formula. -/
inductive Node where
  | number (value : Float)
  | ref (target : Position)
  | plus (lhs rhs : NodeId)
  deriving DecidableEq

/-- The children of a node, from left to right. -/
def Node.children : Node → List NodeId
  | .plus lhs rhs => [lhs, rhs]
  | _ => []

/-- The nodes of all formulas, in the order in which they were added. -/
structure Store where
  nodes : Array Node := #[]
  deriving DecidableEq

namespace Store

def empty : Store := {}

instance : Inhabited Store := ⟨empty⟩

/-- The number of nodes. -/
def size (s : Store) : Nat := s.nodes.size

/-- Adds a node and names it. -/
def push (s : Store) (node : Node) : NodeId × Store :=
  (.ofIndex s.size, ⟨s.nodes.push node⟩)

/-- The node of an id. -/
def get? (s : Store) (id : NodeId) : Option Node :=
  s.nodes[id.index]?

/-- Every node stands after its children. This is what pushing nodes with existing children
guarantees, and what a store read from bytes is checked for. -/
def ChildrenFirst (s : Store) : Prop :=
  ∀ (i : Nat) (node : Node), s.nodes[i]? = some node → ∀ child ∈ node.children, child.index < i

@[simp] theorem size_empty : empty.size = 0 := rfl

@[simp] theorem size_push (s : Store) (node : Node) : (s.push node).2.size = s.size + 1 := by
  simp [push, size]

@[simp] theorem nodes_push (s : Store) (node : Node) : (s.push node).2.nodes = s.nodes.push node :=
  rfl

@[simp] theorem fst_push (s : Store) (node : Node) : (s.push node).1 = .ofIndex s.size := rfl

/-- An id that denotes a node is in range. -/
theorem index_lt_of_get? {s : Store} {id : NodeId} {node : Node} (h : s.get? id = some node) :
    id.index < s.size := by
  obtain ⟨hi, _⟩ := Array.getElem?_eq_some_iff.1 h
  exact hi

/-- An id in range denotes the same node after a push. -/
theorem get?_push_of_lt {s : Store} {id : NodeId} (h : id.index < s.size) (node : Node) :
    (s.push node).2.get? id = s.get? id := by
  simp only [get?, nodes_push]
  exact Array.getElem?_push_lt h |>.trans (Array.getElem?_eq_getElem h).symm

/-- The id that a push returns denotes the pushed node. -/
theorem get?_push_self {s : Store} (h : s.size < 2 ^ 32) (node : Node) :
    (s.push node).2.get? (s.push node).1 = some node := by
  rw [get?, nodes_push, fst_push, NodeId.index_ofIndex h]
  exact Array.getElem?_push_size

theorem childrenFirst_empty : empty.ChildrenFirst := by
  intro i node h
  simp [empty] at h

/-- A node whose children are in the store may be pushed. -/
theorem ChildrenFirst.push {s : Store} (h : s.ChildrenFirst) {node : Node}
    (hnode : ∀ child ∈ node.children, child.index < s.size) :
    (s.push node).2.ChildrenFirst := by
  intro i pushed hi child hchild
  rw [nodes_push, Array.getElem?_push] at hi
  split at hi
  · next heq =>
    obtain rfl := Option.some.inj hi
    rw [heq]
    exact hnode child hchild
  · exact h i pushed hi child hchild

end Store

end PipeSheet.Formula
