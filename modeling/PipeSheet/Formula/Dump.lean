import PipeSheet.Formula.Store
/-!
# PipeSheet.Formula.Dump

**The bytes of a store: a root, the number of nodes, and one record for each node.**

All numbers are little-endian and of fixed width: root and count have 8 bytes, and a record is a tag
of 4 bytes with its fields. Nothing marks the end, so bytes behind the last record are not looked
at.

Reading checks what writing guarantees: the records are complete and known, every child stands
before its parent, and the root is one of the nodes. The first defect in this order is the one
reported.

* `dump`: the bytes of a store with a root;
* `load`: the store and the root of some bytes.
-/

namespace PipeSheet.Formula

/-- Why bytes are no list of records. -/
inductive Malformed where
  /-- The bytes end inside a number. -/
  | truncated
  /-- No record has this tag. -/
  | unknownTag (tag : Nat)
  deriving DecidableEq, Repr

/-- Why a store has no bytes, or bytes have no store. -/
inductive DumpError where
  | rootOutOfRange (root size : Nat)
  /-- A child that does not stand before its parent, the node of the given index. -/
  | danglingIndex (node : Nat) (child : NodeId)
  | malformed (m : Malformed)
  deriving DecidableEq, Repr

/-! ### Numbers -/

/-- The low bytes of a number, the lowest first. -/
def leBytes : Nat → Nat → List UInt8
  | 0, _ => []
  | width + 1, n => UInt8.ofNat n :: leBytes width (n / 256)

/-- Takes a number of some bytes off the front. -/
def takeNat? : Nat → List UInt8 → Option (Nat × List UInt8)
  | 0, bytes => some (0, bytes)
  | _ + 1, [] => none
  | width + 1, byte :: bytes =>
    (takeNat? width bytes).map fun (n, rest) => (byte.toNat + 256 * n, rest)

@[simp] theorem length_leBytes (width n : Nat) : (leBytes width n).length = width := by
  induction width generalizing n with
  | zero => rfl
  | succ width ih => simp [leBytes, ih]

/-- A number that fits is read back. -/
theorem takeNat?_leBytes {width n : Nat} (h : n < 256 ^ width) (rest : List UInt8) :
    takeNat? width (leBytes width n ++ rest) = some (n, rest) := by
  induction width generalizing n with
  | zero => simp [leBytes, takeNat?]; omega
  | succ width ih =>
    have hn : n / 256 < 256 ^ width := by
      rw [Nat.div_lt_iff_lt_mul (by decide), ← Nat.pow_succ]
      exact h
    have hmod : n % 256 + 256 * (n / 256) = n := Nat.mod_add_div n 256
    simp [leBytes, takeNat?, ih hn, hmod]

/-! ### Records -/

/-- The record of a node. -/
def Node.bytes : Node → List UInt8
  | .number value => leBytes 4 0 ++ leBytes 8 value.toBits.toNat
  | .ref target => leBytes 4 1 ++ leBytes 8 target.row ++ leBytes 8 target.col
  | .plus lhs rhs => leBytes 4 2 ++ leBytes 4 lhs.index ++ leBytes 4 rhs.index

/-- Takes a number off the front, or reports that there is none. -/
def readNat (width : Nat) (bytes : List UInt8) : Except Malformed (Nat × List UInt8) :=
  match takeNat? width bytes with
  | some result => .ok result
  | none => .error .truncated

/-- Takes a record off the front. -/
def readNode (bytes : List UInt8) : Except Malformed (Node × List UInt8) := do
  let (tag, bytes) ← readNat 4 bytes
  match tag with
  | 0 =>
    let (bits, bytes) ← readNat 8 bytes
    return (.number (Float.ofBits (UInt64.ofNat bits)), bytes)
  | 1 =>
    let (row, bytes) ← readNat 8 bytes
    let (col, bytes) ← readNat 8 bytes
    return (.ref ⟨row, col⟩, bytes)
  | 2 =>
    let (lhs, bytes) ← readNat 4 bytes
    let (rhs, bytes) ← readNat 4 bytes
    return (.plus (.ofIndex lhs) (.ofIndex rhs), bytes)
  | tag => throw (.unknownTag tag)

/-- Takes as many records off the front as asked for, after the nodes `before`. -/
def readNodes (before : Array Node) : Nat → List UInt8 → Except Malformed (Array Node)
  | 0, _ => .ok before
  | count + 1, bytes =>
    match readNode bytes with
    | .ok (node, rest) => readNodes (before.push node) count rest
    | .error m => .error m

/-- The root and the nodes that bytes begin with. -/
def readRecords (bytes : List UInt8) : Except Malformed (Nat × Array Node) := do
  let (root, bytes) ← readNat 8 bytes
  let (count, bytes) ← readNat 8 bytes
  let nodes ← readNodes #[] count bytes
  return (root, nodes)

/-! ### Stores -/

/-- The first child of a node that does not stand before the node. -/
def Node.danglingChild? (i : Nat) (node : Node) : Option NodeId :=
  node.children.find? fun child => i ≤ child.index

/-- The first node with a child that does not stand before it, and that child. -/
def firstDangling? (nodes : List Node) : Option (Nat × NodeId) :=
  nodes.zipIdx.findSome? fun (node, i) => (node.danglingChild? i).map fun child => (i, child)

/-- The bytes of a store, with one of its nodes as the root. -/
def Store.dump (s : Store) (root : NodeId) : Except DumpError (List UInt8) :=
  match s.get? root with
  | none => .error (.rootOutOfRange root.index s.size)
  | some _ =>
    .ok (leBytes 8 root.index ++ leBytes 8 s.size ++ s.nodes.toList.flatMap Node.bytes)

/-- The store and the root that bytes begin with. An id has 32 bits, so a larger root is never in
range. -/
def Store.load (bytes : List UInt8) : Except DumpError (Store × NodeId) :=
  match readRecords bytes with
  | .error m => .error (.malformed m)
  | .ok (root, nodes) =>
    match firstDangling? nodes.toList with
    | some (node, child) => .error (.danglingIndex node child)
    | none =>
      if root < nodes.size ∧ root < 2 ^ 32 then .ok (⟨nodes⟩, .ofIndex root)
      else .error (.rootOutOfRange root nodes.size)

end PipeSheet.Formula
