import PipeSheet.Failure
import PipeSheet.Formula.Extract
import PipeSheet.Text.Blank
import PipeSheet.Text.Utf8
/-!
# PipeSheet.Command.Basic

**What each command does, from its arguments to its text.**

A command returns the text it prints, or a failure. Those that need files take the access to them as
an argument; a command that writes a file does so last, when nothing else can fail any more.

* `evaluateSource`: a source, evaluated;
* `lexFormula`, `parseFormula`: the tokens and the nodes of a formula;
* `runTable`: a table file, evaluated and rendered;
* `dumpFormula`, `showDump`: the formula of a cell as bytes, and bytes as a formula.
-/

namespace PipeSheet

open Formula (NodeId Node Store)

/-- Reads a source and evaluates all of it. -/
def evaluateSource (source : List Char) : Except Failure (Grid × Stats) :=
  match Table.read source .empty with
  | (.error e, _) => .error (.table e)
  | (.ok table, store) =>
    match ({} : Evaluator).evaluateTable store table with
    | (.ok grid, evaluator, _) => .ok (grid, evaluator.stats)
    | (.error h, _) => .error (.evaluation h)

namespace Command

/-! ### Formulas -/

/-- The formula of an argument: blanks in front of it do not count, and it may have its mark. -/
def stripMark (argument : List Char) : List Char :=
  let s := Text.trimStart argument
  if s.head? = some formulaMark then s.tail else s

/-- The name of a kind of token. -/
def kindName : Formula.TokenKind → String
  | .plus => "Plus"
  | .word => "Word"

/-- The line of a token. -/
def tokenLine (t : Formula.Token) : String :=
  "  " ++ kindName t.kind ++ " " ++ quoted t.text ++ " @ " ++ t.span.label ++ "\n"

/-- Lists the tokens of a formula. -/
def lexFormula (argument : List Char) : Except Failure String :=
  match Formula.tokenize (stripMark argument) with
  | .error u => .error (.formula (.unrecognized u))
  | .ok tokens =>
    .ok ("Tokens (" ++ toString tokens.length ++ "):\n" ++ String.join (tokens.map tokenLine))

/-- A node as a value of its type. -/
def nodeDetail : Node → String
  | .number value => "Number(" ++ String.ofList (Number.detailed value) ++ ")"
  | .ref target =>
    "CellRef \x7b row: " ++ toString target.row ++ ", col: " ++ toString target.col ++ " \x7d"
  | .plus lhs rhs => "Plus \x7b lhs: " ++ lhs.detail ++ ", rhs: " ++ rhs.detail ++ " \x7d"

/-- The lines of all nodes of a store. -/
def nodeLines (store : Store) : String :=
  String.join (store.nodes.toList.zipIdx.map fun (node, i) =>
    "  " ++ (NodeId.ofIndex i).detail ++ ": " ++ nodeDetail node ++ "\n")

/-- The line with the number of nodes. -/
def countLine (store : Store) : String :=
  "Nodes: " ++ toString store.size ++ "\n"

/-- The lines with the root and the text of its formula. -/
def rootLines (store : Store) (root : NodeId) : String :=
  "Root: " ++ root.detail ++ "\n" ++ String.ofList ((store.render? root).getD []) ++ "\n"

/-- Lists the nodes of a formula. -/
def parseFormula (argument : List Char) : Except Failure String :=
  match Formula.read (stripMark argument) .empty with
  | (.error e, _) => .error (.formula e)
  | (.ok root, store) => .ok (countLine store ++ nodeLines store ++ rootLines store root)

/-! ### Tables -/

variable {m : Type → Type} [Monad m]

/-- The bytes of a file. -/
def readBytes (files : FileAccess m) (path : String) : ExceptT Failure m (List UInt8) := do
  match ← files.read path with
  | .ok bytes => return bytes
  | .error e => throw (.read path e)

/-- The text of a file. Bytes that are no text do not make reading fail. -/
def readText (files : FileAccess m) (path : String) : ExceptT Failure m (List Char) :=
  return Text.Utf8.decode (← readBytes files path)

/-- Evaluates the table in a file and renders it. -/
def runTable (files : FileAccess m) (path : String) (precision : Nat) :
    ExceptT Failure m String := do
  let source ← readText files path
  let (grid, _) ← evaluateSource source
  return String.ofList (grid.render precision)

/-! ### Dumps -/

/-- What was dumped. -/
structure DumpSummary where
  cell : Position
  output : String
  nodes : Nat
  deriving DecidableEq, Repr

/-- The formula of a cell as bytes, and the number of its nodes. The whole source has to read, not
only the cell. -/
def dumpOf (source : List Char) (cell : Position) : Except Failure (List UInt8 × Nat) :=
  match Table.read source .empty with
  | (.error e, _) => .error (.table e)
  | (.ok table, store) =>
    match table.get? cell with
    | some (.formula f) =>
      match store.extract? f.root with
      | none => .error (.evaluation (.missingNode f.root))
      | some (tree, root) =>
        match tree.dump root with
        | .ok bytes => .ok (bytes, tree.size)
        | .error e => .error (.dump e)
    | _ => .error (.notAFormula cell)

/-- Writes the formula of a cell to a file, which is named for the cell unless another name is
given. -/
def dumpFormula (files : FileAccess m) (path cellName : String) (output : Option String) :
    ExceptT Failure m DumpSummary := do
  let some cell := Position.ofName? cellName.toList | throw (.invalidCellName cellName)
  let source ← readText files path
  let (bytes, nodes) ← dumpOf source cell
  let output := output.getD (toString cell ++ ".ast")
  match ← files.write output bytes with
  | .ok () => return { cell, output, nodes }
  | .error e => throw (.write output e)

/-- The number of nodes, the root and the formula of a dump. -/
def describeDump (bytes : List UInt8) : Except Failure String :=
  match Store.load bytes with
  | .error e => .error (.dump e)
  | .ok (store, root) => .ok (countLine store ++ rootLines store root)

/-- Shows the formula in a dumped file. -/
def showDump (files : FileAccess m) (path : String) : ExceptT Failure m String := do
  let bytes ← readBytes files path
  describeDump bytes

end Command

end PipeSheet
