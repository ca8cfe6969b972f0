import PipeSheet.Formula.Store
/-!
# PipeSheet.Formula.Extract

**Copying one formula out of a store, and nothing else.**

The nodes under a root are marked from the root downwards: children stand before their parents, so
one pass from the highest index to the lowest meets every parent before its children. Then the
marked nodes are copied from the lowest index upwards, each with its children renamed to their
copies. The order is kept, a node with several parents is copied once, and the root is the last
node of the copy.

* `marks`: which nodes are under a root;
* `Store.extract?`: the copy and its root.
-/

namespace PipeSheet.Formula

/-- Marks a node. -/
def mark (marked : Array Bool) (id : NodeId) : Array Bool :=
  marked.setIfInBounds id.index true

/-- Marks the children of all marked nodes with an index below the given one. -/
def markBelow (nodes : Array Node) : Nat → Array Bool → Array Bool
  | 0, marked => marked
  | i + 1, marked =>
    match marked[i]?, nodes[i]? with
    | some true, some node => markBelow nodes i (node.children.foldl mark marked)
    | _, _ => markBelow nodes i marked

/-- For every index up to that of the root, whether its node is under the root. -/
def marks (s : Store) (root : NodeId) : Array Bool :=
  markBelow s.nodes (root.index + 1) (mark (Array.replicate (root.index + 1) false) root)

/-- The node with its children replaced by their copies. -/
def Node.renamed (copies : Array NodeId) : Node → Node
  | .plus lhs rhs => .plus (copies.getD lhs.index .invalid) (copies.getD rhs.index .invalid)
  | leaf => leaf

/-- Copies marked nodes in order. `copies` names the copy of every earlier node that has one. -/
def copyMarked (copies : Array NodeId) (out : Store) : List (Node × Bool) → Array NodeId × Store
  | [] => (copies, out)
  | (_, false) :: rest => copyMarked (copies.push .invalid) out rest
  | (node, true) :: rest =>
    let (id, out) := out.push (node.renamed copies)
    copyMarked (copies.push id) out rest

/-- A store of only the nodes under a root, and the root in it. -/
def Store.extract? (s : Store) (root : NodeId) : Option (Store × NodeId) :=
  match s.get? root with
  | none => none
  | some _ =>
    let (copies, out) := copyMarked #[] .empty (s.nodes.toList.zip (marks s root).toList)
    some (out, copies.getD root.index .invalid)

end PipeSheet.Formula
