import PipeSheet.Command.Basic
import PipeSheet.Command.Options
/-!
# PipeSheet.Command.Line

**The command line: which command the arguments ask for, and how it ends.**

A command that succeeds prints its text and exits with 0. One that fails prints nothing but the
failure, to the error output, and exits with 1. Arguments that no command understands are answered
with the usage.

* `Outcome`: the exit status and the two outputs;
* `runLine`: the outcome of the arguments.
-/

namespace PipeSheet.Command

/-- How the program ends. -/
structure Outcome where
  status : Nat := 0
  out : String := ""
  err : String := ""
  deriving DecidableEq, Repr

/-- What the program says about itself. -/
def usage : String :=
  String.join <| [
    "minicel - evaluate pipe-separated tables with formulas",
    "",
    "Usage: minicel <file>",
    "       minicel <command> [options]",
    "",
    "Commands:",
    "  run <file>                   Evaluate a table and print the result",
    "  lex <formula>                Tokenize a formula and display tokens",
    "  parse <formula>              Parse a formula and display its AST",
    "  dump-ast <file> <CELL>       Write the AST of a formula cell to a file",
    "  show-ast <path>              Display an AST written by dump-ast",
    "  help                         Show this help message",
    "",
    "Run options:",
    "  --precision=<N>     Digits after the decimal point (default: 6)",
    "",
    "Dump options:",
    "  -o <path>           Output file (default: <CELL>.ast)",
    "",
    "Environment:",
    "  MINICEL_LOG         Log filter, e.g. minicel_eval=trace (falls back to RUST_LOG)",
    "  MINICEL_LOG_TREE    Indented per-span log output"].map (· ++ "\n")

namespace Outcome

/-- The end of a command that printed a text. -/
def success (text : String) : Outcome where
  out := text

/-- The end with a message and nothing done. -/
def refusal (message : String) : Outcome where
  status := 1
  err := message ++ "\n"

/-- The end with the usage and a message. -/
def misuse (message : String) : Outcome where
  status := 1
  err := usage ++ "ERROR: " ++ message ++ "\n"

/-- The end of a command that returned a text or a failure. -/
def ofResult (colored : Bool) : Except Failure String → Outcome
  | .ok text => success text
  | .error f => { status := 1, err := f.diagnostic.render colored }

end Outcome

/-- The last output file among the arguments behind the file and the cell of a dump, or the first
argument that does not belong there. -/
def readOutput (output : Option String) : List String → Except String (Option String)
  | [] => .ok output
  | [argument] => .error argument
  | argument :: path :: rest =>
    if argument = "-o" then readOutput (some path) rest else .error argument

/-- The text about a dump that was written. -/
def DumpSummary.text (s : DumpSummary) : String :=
  "Wrote " ++ toString s.nodes ++ " nodes for " ++ toString s.cell ++ " to " ++ s.output ++ "\n"

variable {m : Type → Type} [Monad m]

/-- Runs a command that needs files. -/
def finish (colored : Bool) (command : ExceptT Failure m String) : m Outcome :=
  return Outcome.ofResult colored (← command.run)

/-- Evaluates the table that some arguments name. -/
def runWith (files : FileAccess m) (colored : Bool) (args : List String) : m Outcome :=
  match RunOptions.ofArgs args with
  | .ok options => finish colored (runTable files options.path options.precision)
  | .error e => return .misuse e.message

/-- Dumps the formula that some arguments name. -/
def dumpWith (files : FileAccess m) (colored : Bool) : List String → m Outcome
  | path :: cell :: rest =>
    match readOutput none rest with
    | .ok output =>
      finish colored (DumpSummary.text <$> dumpFormula files path cell output)
    | .error argument => return .refusal ("error: unexpected argument '" ++ argument ++ "'")
  | _ => return .refusal "Usage: minicel dump-ast <file> <CELL> [-o <path>]"

/-- Runs the command that the arguments ask for. What is no command is the file of `run`. -/
def runLine (files : FileAccess m) (colored : Bool) : List String → m Outcome
  | [] => return .misuse OptionError.missingFile.message
  | command :: args =>
    match command with
    | "run" => runWith files colored args
    | "lex" =>
      match args with
      | formula :: _ => return .ofResult colored (lexFormula formula.toList)
      | [] => return .refusal "Usage: minicel lex <formula>"
    | "parse" =>
      match args with
      | formula :: _ => return .ofResult colored (parseFormula formula.toList)
      | [] => return .refusal "Usage: minicel parse <formula>"
    | "dump-ast" => dumpWith files colored args
    | "show-ast" =>
      match args with
      | path :: _ => finish colored (showDump files path)
      | [] => return .refusal "Usage: minicel show-ast <path>"
    | "help" | "--help" | "-h" => return { err := usage }
    | _ => runWith files colored (command :: args)

end PipeSheet.Command
