import PipeSheet.Position
import PipeSheet.Text.Span
/-!
# PipeSheet.Diagnostic

**A diagnostic is a failure made ready to be read.**

It has a code and a message, and where they help, a cell, a span inside the formula of that cell and
notes. Written out it is a headline, the place, and a line for every note:

```text
error[E2001]: circular dependency detected at A0
  --> A0
  = note: A0 -> B0 -> A0
```

* `Code`: the kinds of failure and their codes;
* `Diagnostic.headline`, `Diagnostic.render`: one line, and all of it;
* `ColorMode`: when the text is coloured.
-/

namespace PipeSheet

/-- The kinds of failure. The first digit of a code tells the phase: 0 tokens, 1 formulas,
2 evaluation, 9 everything around. -/
inductive Code where
  | unrecognizedCharacter
  | invalidReference
  | unexpectedEnd
  | circularDependency
  | typeMismatch
  | outOfBounds
  | fileAccess
  | malformedDump
  | notAFormula
  deriving DecidableEq, Repr

namespace Code

/-- All codes. -/
def all : List Code :=
  [unrecognizedCharacter, invalidReference, unexpectedEnd, circularDependency, typeMismatch,
   outOfBounds, fileAccess, malformedDump, notAFormula]

/-- The text of a code. -/
def label : Code → String
  | unrecognizedCharacter => "E0001"
  | invalidReference => "E1001"
  | unexpectedEnd => "E1002"
  | circularDependency => "E2001"
  | typeMismatch => "E2002"
  | outOfBounds => "E2003"
  | fileAccess => "E9001"
  | malformedDump => "E9002"
  | notAFormula => "E9003"

/-- The code that has a text. -/
def ofLabel? (s : String) : Option Code :=
  all.find? fun code => code.label = s

theorem ofLabel?_label (code : Code) : ofLabel? code.label = some code := by
  cases code <;> decide

end Code

/-- A failure ready to be read. -/
structure Diagnostic where
  code : Code
  message : String
  cell : Option Position := none
  span : Option Span := none
  notes : List String := []
  deriving DecidableEq, Repr

/-- When text is coloured. -/
inductive ColorMode where
  /-- When it goes to a terminal. -/
  | auto
  | always
  | never
  deriving DecidableEq, Repr

/-- Whether to colour a text that goes to a terminal or elsewhere. -/
def ColorMode.colored (mode : ColorMode) (terminal : Bool) : Bool :=
  match mode with
  | .auto => terminal
  | .always => true
  | .never => false

/-- The ways in which parts of a diagnostic stand out. -/
inductive Style where
  | error
  | note
  | bold
  deriving DecidableEq, Repr

/-- The control sequence that begins a style. -/
def Style.start : Style → String
  | .error => "\x1b[1;31m"
  | .note => "\x1b[1;36m"
  | .bold => "\x1b[1m"

/-- A text in a style, if styles are used. -/
def paint (colored : Bool) (style : Style) (s : String) : String :=
  if colored then style.start ++ s ++ "\x1b[0m" else s

namespace Diagnostic

/-- The code in its brackets. -/
def head (d : Diagnostic) : String :=
  "error[" ++ d.code.label ++ "]"

/-- The diagnostic in one line. -/
def headline (d : Diagnostic) : String :=
  d.head ++ ": " ++ d.message

/-- The line that names the cell and, counting from 1, the first byte of the span in the cell's
formula. A span without a cell names no place. -/
def place (d : Diagnostic) : String :=
  match d.cell, d.span with
  | none, _ => ""
  | some cell, none => "  --> " ++ toString cell ++ "\n"
  | some cell, some span =>
    "  --> " ++ toString cell ++ ":" ++ toString (span.start + 1).toNat ++ "\n"

/-- The line of a note. -/
def noteLine (colored : Bool) (note : String) : String :=
  "  = " ++ paint colored .note "note" ++ ": " ++ note ++ "\n"

/-- The whole text of a diagnostic. -/
def render (colored : Bool) (d : Diagnostic) : String :=
  paint colored .error d.head ++ ": " ++ paint colored .bold d.message ++ "\n" ++
    d.place ++ String.join (d.notes.map (noteLine colored))

end Diagnostic

end PipeSheet
