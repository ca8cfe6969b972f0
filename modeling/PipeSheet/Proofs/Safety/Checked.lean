import PipeSheet.Proofs.Evaluation.Run
import PipeSheet.Table.Reader
/-!
# PipeSheet.Proofs.Safety.Checked

**The program with every partial operation checked.**

The definitions of the program are total: where an index, an id or a span is out of range they go on
with something. A program on a machine stops there. Here every such operation is written out with
its check, and a check that fails is a `Panic`. Evaluation goes from node to node by their ids, not
along the tree of a formula, and keeps a list of the nodes that it visits.

Memory is taken to be enough, and so is the capacity of a vector: how many cells one can hold is
checked where a command reads a source (`Checked.readSource`, in `PipeSheet.Proofs.Safety.Work`).

That none of the checks ever fails, and that the results are those of the program, is proved in
`PipeSheet.Proofs.Safety.Reading` and `PipeSheet.Proofs.Safety.Evaluation`.

* `Panic`: an operation used outside its domain;
* `Checked.read`, `Checked.readTable`: reading a formula and a table;
* `Checked.resolve`, `Checked.resolveAll`: evaluation;
* `Checked.evaluateCell`, `Checked.evaluateTable`: calls.
-/

namespace PipeSheet

open Formula (FormulaError Lexeme Node NodeId Operand Store)
open Text (Piece byteLength)

/-- An operation used outside its domain. -/
inductive Panic where
  /-- A number of 64 bits is too large. -/
  | overflow
  /-- There is no cell with an index. -/
  | noCell (index : Nat)
  /-- A node is added to a store that holds as many nodes as there are ids. -/
  | full
  /-- A node is added before its child. -/
  | noChild (id : NodeId)
  /-- There is no node with an id. -/
  | noNode (id : NodeId)
  /-- A span does not lie in the text, or not between two characters. -/
  | noSlice (span : Span)
  /-- A path is shorter than the part to leave out. -/
  | noPath (start : Nat)
  /-- A grid gets a wrong number of values. -/
  | noShape
  deriving DecidableEq, Repr

namespace Checked

/-! ### Reading -/

/-- Adds a node. -/
def push (store : Store) (node : Node) : Except Panic (NodeId × Store) :=
  if store.size < NodeId.invalid.index then
    match node.children.find? fun child => store.size ≤ child.index with
    | some child => .error (.noChild child)
    | none => .ok (store.push node)
  else .error .full

/-- Adds the sums of a formula. -/
def addSums (last : NodeId) : List NodeId → Store → Except Panic (NodeId × Store)
  | [], store => .ok (last, store)
  | lhs :: pending, store => do
    let (sum, store) ← push store (.plus lhs last)
    addSums sum pending store

/-- Reads operands, of which `pending` are already in the store. -/
def readSum (stop : Span) (pending : List NodeId) :
    List Lexeme → Store → Except Panic (Except FormulaError NodeId × Store)
  | [], store => .ok (.error (.unexpectedEnd stop), store)
  | .unrecognized u :: _, store => .ok (.error (.unrecognized u), store)
  | .token t :: rest, store =>
    match Operand.ofText? t.text with
    | none => .ok (.error (.invalidReference t.text t.span), store)
    | some operand => do
      let (id, store) ← push store operand.node
      match rest with
      | .unrecognized u :: _ => .ok (.error (.unrecognized u), store)
      | .token ⟨.plus, _, _⟩ :: rest => readSum stop (id :: pending) rest store
      | .token ⟨.word, _, _⟩ :: _ | [] => do
        let (root, store) ← addSums id pending store
        .ok (.ok root, store)

/-- Reads a formula into a store. -/
def read (source : List Char) (store : Store) : Except Panic (Except FormulaError NodeId × Store) :=
  readSum (.ofRange (byteLength source) (byteLength source)) [] (Formula.lexemes source) store

/-- The cell of a piece. Only a formula needs the store. -/
def readCell (piece : Piece) (store : Store) : Except Panic (Except FormulaError Cell × Store) :=
  let content := Text.trim piece.text
  if content.head? = some formulaMark then do
    let (result, store) ← read content.tail store
    .ok (result.map fun root => .formula { root }, store)
  else .ok (Cell.read piece store)

/-- The index of a position in a table with some columns. -/
def index (cols : Nat) (p : Position) : Except Panic Nat :=
  if p.row * cols + p.col < 2 ^ 64 then .ok (p.row * cols + p.col) else .error .overflow

/-- The pieces of a source, each with its position. -/
def writtenPieces (source : List Char) : List (Position × Piece) :=
  (pieceRows source).zipIdx.flatMap fun (row, r) =>
    row.zipIdx.map fun (piece, c) => (⟨r, c⟩, piece)

/-- Reads pieces into the cells of a table that is empty at first. -/
def fill {size : Nat} (cols : Nat) : List (Position × Piece) → Vector Cell size → Store →
    Except Panic (Except TableError (Vector Cell size) × Store)
  | [], cells, store => .ok (.ok cells, store)
  | (p, piece) :: rest, cells, store => do
    match ← readCell piece store with
    | (.error cause, store) => .ok (.error ⟨p, cause⟩, store)
    | (.ok cell, store) =>
      let i ← index cols p
      if h : i < size then fill cols rest (cells.set i cell h) store else .error (.noCell i)

/-- The table of a source. Its shape is found first, and then its pieces are put in place. -/
def readTable (source : List Char) (store : Store) :
    Except Panic (Except TableError Table × Store) :=
  let rows := (pieceRows source).length
  let cols := width (pieceRows source)
  if rows * cols < 2 ^ 64 then do
    let (result, store) ← fill cols (writtenPieces source)
      (Vector.replicate (rows * cols) .empty) store
    .ok (result.map fun cells => ⟨source, rows, cols, cells.toArray, cells.size_toArray⟩, store)
  else .error .overflow

/-! ### Tables -/

/-- The cell at a position, if the position lies inside the table. -/
def get? (t : Table) (p : Position) : Except Panic (Option Cell) :=
  if t.Contains p then do
    let i ← index t.cols p
    match t.cells[i]? with
    | some cell => .ok (some cell)
    | none => .error (.noCell i)
  else .ok none

/-- The table with a new state of the formula at a position. Whether the position lies inside is not
asked. -/
def setFormula (t : Table) (p : Position) (status : Status) (value : Float) :
    Except Panic Table := do
  let _ ← index t.cols p
  .ok (t.setFormula p status value)

/-- The part of the source under a span. -/
def text (t : Table) (span : Span) : Except Panic (List Char) :=
  match t.text? span with
  | some content => .ok content
  | none => .error (.noSlice span)

/-- What a cell shows. A text is taken from the source. -/
def value (t : Table) : Cell → Except Panic Value
  | .text span _ => (text t span).map .text
  | cell => .ok cell.value

/-- The grid of a table in its present state. -/
def toGrid (t : Table) : Except Panic Grid := do
  let values ← t.cells.toList.mapM (value t)
  if h : values.length = t.rows * t.cols then .ok ⟨t.rows, t.cols, values.toArray, by simpa using h⟩
  else .error .noShape

/-- The path of a cycle that closes at `cell`. -/
def cycleTo (e : Evaluator) (cell : Position) : Except Panic (List Position) :=
  let path := e.path.reverse
  let start := (path.findIdx? (· = cell)).getD 0
  if start ≤ path.length then .ok (path.drop start ++ [cell]) else .error (.noPath start)

/-- The node of an id. -/
def node (store : Store) (id : NodeId) : Except Panic Node :=
  match store.get? id with
  | some node => .ok node
  | none => .error (.noNode id)

end Checked

/-! ### Evaluation -/

/-- The state of an evaluation, and the nodes that it has visited, last one first. -/
structure Watched where
  state : EvalState
  visited : List NodeId

/-- Why a checked evaluation ends early. -/
inductive Stop where
  | halt (h : Halt)
  | panic (p : Panic)

/-- A computation that changes the state and may end early. -/
abbrev CheckM := ExceptT Stop (StateM Watched)

namespace Checked

/-- A checked operation, within an evaluation. -/
def need {α : Type} : Except Panic α → CheckM α
  | .ok a => return a
  | .error p => throw (.panic p)

/-- Ends the evaluation with an error. -/
def fail {α : Type} (e : EvalError) : CheckM α :=
  throw (.halt (.error e))

/-- Changes the state. -/
def modifyState (change : EvalState → EvalState) : CheckM Unit :=
  modify fun w => { w with state := change w.state }

/-- Counts a visited node. -/
def visit (id : NodeId) : CheckM Unit :=
  modify fun w => ⟨w.state.visit, id :: w.visited⟩

/-- Begins the formula at a position. -/
def enter (p : Position) : CheckM Unit := do
  let _ ← need (setFormula (← get).state.table p .inProgress 0)
  modifyState fun σ => σ.enter p

/-- Ends the formula at a position with its value. -/
def leave (p : Position) (value : Float) : CheckM Unit := do
  let _ ← need (setFormula (← get).state.table p .evaluated value)
  modifyState fun σ => σ.leave p value

/-- The value of a node, given the values of positions. A node has fewer than `depth` nodes below
one another. -/
def evaluateNode (resolve : Position → CheckM Float) (store : Store) : Nat → NodeId → CheckM Float
  | 0, _ => throw (.halt .exhausted)
  | depth + 1, id => do
    visit id
    match ← need (node store id) with
    | .number value => return value
    | .ref target => resolve target
    | .plus lhs rhs =>
      let l ← evaluateNode resolve store depth lhs
      let r ← evaluateNode resolve store depth rhs
      return l + r

/-- Begins the formula at a position and ends it with its value. -/
def evaluateFormula (resolve : Position → CheckM Float) (store : Store) (p : Position)
    (f : FormulaCell) : CheckM Float := do
  enter p
  let value ← evaluateNode resolve store store.size f.root
  leave p value
  return value

/-- The value of a cell, if there is one at the position; a formula that is not begun has the value
that `begin` gives it. -/
def resolveCell (begin : FormulaCell → CheckM Float) (origin : Option Position) (p : Position)
    (state : EvalState) : Option Cell → CheckM Float
  | none => fail (.outOfBounds p origin state.table.rows state.table.cols)
  | some .empty => return 0
  | some (.number value) => return value
  | some (.text span _) => do
    let content ← need (text state.table span)
    fail (.typeMismatch p origin content)
  | some (.formula f) =>
    match f.status with
    | .evaluated => do
      modifyState EvalState.hit
      return f.value
    | .inProgress => do
      let path ← need (cycleTo state.evaluator p)
      fail (.circularDependency p path)
    | .unevaluated => begin f

/-- Looks a position up and takes the value of its cell. -/
def lookUp (begin : FormulaCell → CheckM Float) (origin : Option Position) (p : Position) :
    CheckM Float := do
  let state := (← get).state
  let cell ← need (get? state.table p)
  resolveCell begin origin p state cell

/-- The value of a position that the formula at `origin` refers to. -/
def resolve (store : Store) : Nat → Option Position → Position → CheckM Float
  | 0, origin, p => lookUp (fun _ => throw (.halt .exhausted)) origin p
  | depth + 1, origin, p =>
    lookUp (evaluateFormula (resolve store depth (some p)) store p) origin p

/-- Evaluates the formulas among some positions, in order, until one fails. -/
def resolveAll (store : Store) (depth : Nat) : List Position → CheckM Unit
  | [] => return
  | p :: rest => do
    match ← need (get? (← get).state.table p) with
    | some (.formula _) => discard (resolve store depth none p)
    | _ => pure ()
    resolveAll store depth rest

/-! ### Calls -/

/-- The value of the cell at a position. -/
def askCell (store : Store) (p : Position) : CheckM Float := do
  resolve store (← get).state.table.cells.size none p

/-- The grid of all values. -/
def askTable (store : Store) : CheckM Grid := do
  let t := (← get).state.table
  resolveAll store t.cells.size t.positions
  need (toGrid (← get).state.table)

/-- Runs a computation on a table: the result, the evaluator and the table after it. -/
def run {α : Type} (e : Evaluator) (t : Table) (m : CheckM α) :
    Except Panic (Except Halt α × Evaluator × Table) :=
  match m.run.run ⟨⟨t, e⟩, []⟩ with
  | (.ok a, w) => .ok (.ok a, w.state.evaluator, w.state.table)
  | (.error (.halt h), w) => .ok (.error h, w.state.evaluator, w.state.table)
  | (.error (.panic p), _) => .error p

def evaluateCell (store : Store) (e : Evaluator) (t : Table) (p : Position) :
    Except Panic (Except Halt Float × Evaluator × Table) :=
  run e t (askCell store p)

def evaluateTable (store : Store) (e : Evaluator) (t : Table) :
    Except Panic (Except Halt Grid × Evaluator × Table) :=
  run e t (askTable store)

end Checked

end PipeSheet
