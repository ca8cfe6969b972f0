import PipeSheet.Grid
/-!
# PipeSheet.Command.Options

**The arguments of `run`: one file, and how precisely numbers are written.**

Arguments are read from left to right and the first bad one decides the error. An argument that
begins with a dash is an option, and the only option is `--precision=` with a number; the last one
given counts. Any other argument is the file.

* `RunOptions`: what the arguments say;
* `OptionError`: what is wrong with them;
* `RunOptions.ofArgs`: reads them.
-/

namespace PipeSheet.Command

/-- What the arguments of `run` say. -/
structure RunOptions where
  path : String
  precision : Nat := defaultPrecision
  deriving DecidableEq, Repr

/-- What is wrong with the arguments of `run`. -/
inductive OptionError where
  | invalidPrecision (value : String)
  | unknownOption (argument : String)
  /-- A second file. -/
  | unexpectedArgument (argument : String)
  | missingFile
  deriving DecidableEq, Repr

def OptionError.message : OptionError → String
  | invalidPrecision value => "invalid precision '" ++ value ++ "'"
  | unknownOption argument => "unknown option '" ++ argument ++ "'"
  | unexpectedArgument argument => "unexpected argument '" ++ argument ++ "'"
  | missingFile => "input file is not provided"

/-- The beginning of the precision option. -/
def precisionOption : List Char := "--precision=".toList

/-- The number of places that the value of the precision option asks for: digits, and a plus sign
before them if one likes. -/
def readPrecision? : List Char → Option Nat
  | '+' :: digits => Number.naturalOf? digits
  | digits => Number.naturalOf? digits

/-- What one argument is. -/
inductive Argument where
  | precision (n : Nat)
  | file (path : String)
  | bad (e : OptionError)
  deriving DecidableEq, Repr

/-- Looks at one argument. -/
def Argument.ofString (argument : String) : Argument :=
  let chars := argument.toList
  if precisionOption.isPrefixOf chars then
    let value := chars.drop precisionOption.length
    match readPrecision? value with
    | some n => .precision n
    | none => .bad (.invalidPrecision (String.ofList value))
  else if chars.head? = some '-' then .bad (.unknownOption argument)
  else .file argument

/-- Reads arguments behind some others that gave `path` and `precision`. -/
def readArgs (path : Option String) (precision : Nat) :
    List String → Except OptionError RunOptions
  | [] =>
    match path with
    | some path => .ok { path, precision }
    | none => .error .missingFile
  | argument :: rest =>
    match Argument.ofString argument with
    | .precision n => readArgs path n rest
    | .bad e => .error e
    | .file file =>
      match path with
      | none => readArgs (some file) precision rest
      | some _ => .error (.unexpectedArgument file)

/-- Reads the arguments of `run`. -/
def RunOptions.ofArgs (args : List String) : Except OptionError RunOptions :=
  readArgs none defaultPrecision args

end PipeSheet.Command
