import PipeSheet.Grid
import PipeSheet.Formula.Tree
/-!
# PipeSheet.Evaluation.Basic

**Evaluating a cell evaluates what it refers to, each formula at most once.**

A formula is marked `inProgress` when its evaluation begins and `evaluated` when it ends; a marked
one is not begun again. So a reference to a formula in progress is a cycle, and a reference to an
evaluated one is answered by its value. Of a sum the left operand comes first.

A failure ends everything: the formulas that are in progress stay so, and the path to the failure
stays in the evaluator. Both are part of the state that a later call starts from.

The depth of nested formulas is bounded by the number of cells, because every formula that is begun
stays marked until it ends. The bound is an argument of `resolve`, so that the recursion is on it;
`Halt.exhausted` and `Halt.missingNode` are the two ways out that a table read from a source never
takes.

* `Stats`, `Evaluator`: what an evaluator counts and remembers;
* `EvalError`: why a cell has no value;
* `Tree.evaluate`, `resolve`: the value of a formula, and of a position;
* `Evaluator.evaluateCell`, `Evaluator.evaluateTable`: one cell, and all of them.
-/

namespace PipeSheet

open Formula (NodeId Store Tree)

/-- What an evaluator has done so far. -/
structure Stats where
  /-- Formulas begun. -/
  formulasEvaluated : Nat := 0
  /-- References answered by the value of an evaluated formula. -/
  cacheHits : Nat := 0
  /-- Nodes visited. -/
  nodesVisited : Nat := 0
  deriving DecidableEq, Repr

/-- An evaluator: its counters, and the formulas in progress, innermost first. -/
structure Evaluator where
  stats : Stats := {}
  path : List Position := []
  deriving DecidableEq, Repr

/-- Why a cell has no value. Where a reference led to the failure, `origin` is its formula. -/
inductive EvalError where
  /-- A formula needs itself; the path leads from it back to it. -/
  | circularDependency (cell : Position) (path : List Position)
  /-- A text where a number is needed. -/
  | typeMismatch (cell : Position) (origin : Option Position) (content : List Char)
  /-- A position outside the table. -/
  | outOfBounds (cell : Position) (origin : Option Position) (rows cols : Nat)
  deriving DecidableEq, Repr

/-- The cell that an error is about. -/
def EvalError.cell : EvalError → Position
  | .circularDependency cell _ => cell
  | .typeMismatch cell _ _ => cell
  | .outOfBounds cell _ _ _ => cell

/-- Why an evaluation ends without a value. -/
inductive Halt where
  | error (e : EvalError)
  /-- A formula has no tree in the store. -/
  | missingNode (root : NodeId)
  /-- More formulas are nested than there are cells. -/
  | exhausted
  deriving DecidableEq, Repr

/-- What an evaluation changes. -/
structure EvalState where
  table : Table
  evaluator : Evaluator
  deriving DecidableEq

/-- A computation that changes the state and may end early; the changes made until then stay. -/
abbrev EvalM := ExceptT Halt (StateM EvalState)

/-- The path of a cycle that closes at `cell`: from the place where the evaluation of `cell` began
down to the innermost formula, and back. -/
def Evaluator.cycleTo (e : Evaluator) (cell : Position) : List Position :=
  let outermostFirst := e.path.reverse
  (if cell ∈ outermostFirst then outermostFirst.dropWhile (· ≠ cell) else outermostFirst) ++ [cell]

/-! ### The steps of an evaluation -/

/-- Counts a visited node. -/
def countVisit : EvalM Unit :=
  modify fun s => { s with evaluator.stats.nodesVisited := s.evaluator.stats.nodesVisited + 1 }

/-- Counts a reference answered by a known value. -/
def countHit : EvalM Unit :=
  modify fun s => { s with evaluator.stats.cacheHits := s.evaluator.stats.cacheHits + 1 }

/-- Begins the formula at a position. -/
def enter (p : Position) : EvalM Unit :=
  modify fun s => {
    table := s.table.setFormula p .inProgress 0
    evaluator := {
      stats := { s.evaluator.stats with
        formulasEvaluated := s.evaluator.stats.formulasEvaluated + 1 }
      path := p :: s.evaluator.path } }

/-- Ends the formula at a position with its value. -/
def leave (p : Position) (value : Float) : EvalM Unit :=
  modify fun s => {
    table := s.table.setFormula p .evaluated value
    evaluator := { s.evaluator with path := s.evaluator.path.tail } }

/-- The value of a formula, given the values of positions. -/
def Formula.Tree.evaluate (resolve : Position → EvalM Float) : Tree → EvalM Float
  | .number value => do
    countVisit
    return value
  | .ref target => do
    countVisit
    resolve target
  | .plus lhs rhs => do
    countVisit
    let l ← lhs.evaluate resolve
    let r ← rhs.evaluate resolve
    return l + r

/-- The value of a position that the formula at `origin` refers to, with at most `depth` formulas
begun inside one another. -/
def resolve (store : Store) (depth : Nat) (origin : Option Position) (p : Position) :
    EvalM Float := do
  let state ← get
  match state.table.get? p with
  | none => throw (.error (.outOfBounds p origin state.table.rows state.table.cols))
  | some .empty => return 0
  | some (.number value) => return value
  | some (.text _ content) => throw (.error (.typeMismatch p origin content))
  | some (.formula f) =>
    match f.status with
    | .evaluated =>
      countHit
      return f.value
    | .inProgress => throw (.error (.circularDependency p (state.evaluator.cycleTo p)))
    | .unevaluated =>
      match depth with
      | 0 => throw .exhausted
      | depth + 1 =>
        match store.tree? f.root with
        | none => throw (.missingNode f.root)
        | some tree =>
          enter p
          let value ← tree.evaluate (resolve store depth (some p))
          leave p value
          return value

/-- Evaluates the formulas among some positions, in order, until one fails. -/
def resolveAll (store : Store) (depth : Nat) : List Position → EvalM Unit
  | [] => return
  | p :: rest => do
    if (((← get).table.get? p).getD .empty).isFormula then
      discard (resolve store depth none p)
    resolveAll store depth rest

/-! ### Calls -/

/-- Runs a computation on a table: the result, the evaluator and the table after it. -/
def Evaluator.run {α : Type} (e : Evaluator) (t : Table) (m : EvalM α) :
    Except Halt α × Evaluator × Table :=
  let (result, state) := m.run.run ⟨t, e⟩
  (result, state.evaluator, state.table)

/-- The value of the cell at a position. -/
def Evaluator.evaluateCell (store : Store) (e : Evaluator) (t : Table) (p : Position) :
    Except Halt Float × Evaluator × Table :=
  e.run t (resolve store t.cells.size none p)

/-- Evaluates every formula, row by row, and shows the table. -/
def Evaluator.evaluateTable (store : Store) (e : Evaluator) (t : Table) :
    Except Halt Grid × Evaluator × Table :=
  e.run t do
    resolveAll store t.cells.size t.positions
    return (← get).table.toGrid

end PipeSheet
