import PipeSheet.Diagnostic
import PipeSheet.Files.Access
import PipeSheet.Table.Reader
import PipeSheet.Evaluation.Basic
import PipeSheet.Formula.Dump
/-!
# PipeSheet.Failure

**Every cause of failure, and what is said about it.**

The parts of the library report causes; here each cause gets its code, its message and, as a
diagnostic, its cell, its span and its notes.

* `Failure`: all causes together;
* `Failure.code`, `Failure.message`, `Failure.diagnostic`: what is said.
-/

namespace PipeSheet

open Formula (Unrecognized FormulaError DumpError Malformed)

/-- A text as a string. -/
def quoted (s : List Char) : String :=
  "`" ++ String.ofList s ++ "`"

/-! ### Formulas -/

def Formula.Unrecognized.message (u : Unrecognized) : String :=
  "unrecognized character " ++ quoted [u.found] ++ " in formula"

namespace Formula.FormulaError

def message : FormulaError → String
  | .unrecognized u => u.message
  | .invalidReference text _ => "invalid cell reference " ++ quoted text
  | .unexpectedEnd _ => "unexpected end of formula, expected a number or cell reference"

def code : FormulaError → Code
  | .unrecognized _ => .unrecognizedCharacter
  | .invalidReference _ _ => .invalidReference
  | .unexpectedEnd _ => .unexpectedEnd

/-- A reminder of what a formula may contain. -/
def notes : FormulaError → List String
  | .unrecognized _ => ["formulas may only contain numbers, cell references and `+`"]
  | .invalidReference _ _ =>
    ["cell references are one letter `A`..`Z` followed by a row index, e.g. `B3`"]
  | .unexpectedEnd _ => []

def diagnostic (e : FormulaError) : Diagnostic where
  code := e.code
  message := e.message
  span := some e.span
  notes := e.notes

end Formula.FormulaError

namespace TableError

def message (e : TableError) : String :=
  "invalid formula in " ++ toString e.cell ++ ": " ++ e.cause.message

/-- The diagnostic of the formula, in its cell. -/
def diagnostic (e : TableError) : Diagnostic :=
  { e.cause.diagnostic with message := e.message, cell := some e.cell }

end TableError

/-! ### Evaluation -/

namespace EvalError

def message : EvalError → String
  | .circularDependency cell _ => "circular dependency detected at " ++ toString cell
  | .typeMismatch cell _ content =>
    "text cell " ++ toString cell ++ " (" ++ quoted content ++ ") used in a numeric context"
  | .outOfBounds cell _ rows cols =>
    "reference to " ++ toString cell ++ " is outside the " ++ toString rows ++ "x" ++
      toString cols ++ " table"

def code : EvalError → Code
  | .circularDependency _ _ => .circularDependency
  | .typeMismatch _ _ _ => .typeMismatch
  | .outOfBounds _ _ _ _ => .outOfBounds

/-- The way around the cycle, or the formula that led to the failing cell. -/
def notes : EvalError → List String
  | .circularDependency _ path => [" -> ".intercalate (path.map toString)]
  | .typeMismatch _ origin _ => origin.toList.map fun p => "referenced from " ++ toString p
  | .outOfBounds _ origin _ _ => origin.toList.map fun p => "referenced from " ++ toString p

def diagnostic (e : EvalError) : Diagnostic where
  code := e.code
  message := e.message
  cell := some e.cell
  notes := e.notes

end EvalError

namespace Halt

def message : Halt → String
  | .error e => e.message
  | .missingNode root => root.detail ++ " denotes no formula"
  | .exhausted => "more formulas are nested than there are cells"

/-- What no table read from a source leads to counts as a cell without a formula. -/
def diagnostic : Halt → Diagnostic
  | .error e => e.diagnostic
  | h => { code := .notAFormula, message := h.message }

end Halt

/-! ### Dumps -/

def Formula.Malformed.message : Malformed → String
  | .truncated => "io error: failed to fill whole buffer"
  | .unknownTag tag =>
    "invalid value: integer `" ++ toString tag ++ "`, expected variant index 0 <= i < 3"

def Formula.DumpError.message : DumpError → String
  | .rootOutOfRange root size =>
    "root " ++ toString root ++ " is out of range (arena holds " ++ toString size ++ " nodes)"
  | .danglingIndex node child =>
    "node " ++ toString node ++ " references " ++ child.detail ++
      ", which is not an earlier node"
  | .malformed m => "malformed AST dump: " ++ m.message

/-! ### All of them -/

/-- Why a command fails. -/
inductive Failure where
  | read (path : String) (cause : SystemError)
  | write (path : String) (cause : SystemError)
  | table (e : TableError)
  | formula (e : FormulaError)
  | evaluation (h : Halt)
  | dump (e : DumpError)
  | invalidCellName (name : String)
  | notAFormula (cell : Position)
  deriving DecidableEq, Repr

namespace Failure

def message : Failure → String
  | .read path cause => "could not read file " ++ path ++ ": " ++ cause.message
  | .write path cause => "could not write file " ++ path ++ ": " ++ cause.message
  | .table e => e.message
  | .formula e => e.message
  | .evaluation h => h.message
  | .dump e => e.message
  | .invalidCellName name => "`" ++ name ++ "` is not a cell name"
  | .notAFormula cell => "cell " ++ toString cell ++ " does not hold a formula"

/-- The failure made ready to be read. -/
def diagnostic : Failure → Diagnostic
  | .table e => e.diagnostic
  | .formula e => e.diagnostic
  | .evaluation h => h.diagnostic
  | f@(.read _ _) | f@(.write _ _) => { code := .fileAccess, message := f.message }
  | f@(.dump _) => { code := .malformedDump, message := f.message }
  | f@(.invalidCellName _) => { code := .invalidReference, message := f.message }
  | f@(.notAFormula cell) => { code := .notAFormula, message := f.message, cell := some cell }

def code (f : Failure) : Code :=
  f.diagnostic.code

end Failure

end PipeSheet
