import PipeSheet.Text.Span
/-!
# PipeSheet.Formula.Token

**A formula is words and plus signs.**

A word is a maximal run of ASCII letters, digits and underscores; whether it is a number or a cell
name is not asked here. Spaces between tokens are skipped. Any other character is no token, but
reading goes on behind it: the text of a formula is a list of *lexemes*, each a token or one
unrecognized character.

The list comes from cutting the text into runs: neighbouring characters belong to one run when both
are word characters, so every word is a run and every other character is a run of its own.

* `Lexeme`, `lexemes`: the lexemes of a text, each with its span;
* `tokenize`: the tokens of a text that has no unrecognized character.
-/

namespace PipeSheet.Formula

open Text (Piece byteLength)

/-- The characters that separate tokens: space, tab, line feed, vertical tab, form feed and carriage
return. -/
def isSpace (c : Char) : Bool :=
  c = ' ' || (9 ≤ c.toNat && c.toNat ≤ 13)

/-- The characters of a word. -/
def isWordChar (c : Char) : Bool :=
  c.isAlphanum || c = '_'

inductive TokenKind where
  | plus
  | word
  deriving DecidableEq, Repr

/-- A token with its text and where it stands in the formula. -/
structure Token where
  kind : TokenKind
  text : List Char
  span : Span
  deriving DecidableEq, Repr

/-- A character that is no token, and where it stands in the formula. -/
structure Unrecognized where
  found : Char
  span : Span
  deriving DecidableEq, Repr

/-- What the text of a formula falls into. -/
inductive Lexeme where
  | token (t : Token)
  | unrecognized (u : Unrecognized)
  deriving DecidableEq, Repr

/-- The runs of a text: maximal words, and every other character by itself. -/
def runs (s : List Char) : List (List Char) :=
  s.splitBy fun a b => isWordChar a && isWordChar b

/-- Gives adjoining runs their offsets. -/
def locateRuns (start : Nat) : List (List Char) → List Piece
  | [] => []
  | run :: rest => ⟨start, run⟩ :: locateRuns (start + byteLength run) rest

/-- The lexeme of a run; a space has none. -/
def Lexeme.ofRun? (run : Piece) : Option Lexeme :=
  let span := Span.ofRange run.start (run.start + byteLength run.text)
  match run.text with
  | [] => none
  | c :: _ =>
    if isSpace c then none
    else if c = '+' then some (.token ⟨.plus, run.text, span⟩)
    else if isWordChar c then some (.token ⟨.word, run.text, span⟩)
    else some (.unrecognized ⟨c, span⟩)

/-- The lexemes of a text, from left to right. -/
def lexemes (s : List Char) : List Lexeme :=
  (locateRuns 0 (runs s)).filterMap Lexeme.ofRun?

/-- The tokens before the first unrecognized character, and that character if there is one. -/
def tokensOf : List Lexeme → Except Unrecognized (List Token)
  | [] => .ok []
  | .unrecognized u :: _ => .error u
  | .token t :: rest => (tokensOf rest).map (t :: ·)

/-- The tokens of a text, or its first unrecognized character. -/
def tokenize (s : List Char) : Except Unrecognized (List Token) :=
  tokensOf (lexemes s)

@[simp] theorem lexemes_nil : lexemes [] = [] := rfl

end PipeSheet.Formula
