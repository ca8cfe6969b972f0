import PipeSheet.Formula.Token
import PipeSheet.Formula.Store
import PipeSheet.Number.Reader
/-!
# PipeSheet.Formula.Reader

**A formula is a sum of operands, grouped to the right.**

Its words and plus signs alternate and begin with a word. Each word is a number if it reads as one,
and otherwise a cell name. The sum ends at the first operand that no plus sign follows; a word in
that place ends it silently, a character that is no token does not.

The operands go into the store one by one as they are read, so a formula that fails leaves its
operands behind. Only when the last operand is known are the sums added, the innermost one first.

* `Operand`: a number or a reference;
* `FormulaError`: why a text is no formula, with its span;
* `read`: reads a formula into a store.
-/

namespace PipeSheet.Formula

open Text (byteLength)

/-- One summand. -/
inductive Operand where
  | number (value : Float)
  | ref (target : Position)
  deriving DecidableEq

namespace Operand

/-- The operand that a text writes: what reads as a number is one, even where it might be a name. -/
def ofText? (text : List Char) : Option Operand :=
  match Number.read? text with
  | some value => some (.number value)
  | none => (Position.ofName? text).map .ref

/-- The node of an operand. -/
def node : Operand → Node
  | .number value => .number value
  | .ref target => .ref target

end Operand

/-- Why a text is no formula. -/
inductive FormulaError where
  /-- A character that belongs to no token, where an operand or a plus sign is looked for. -/
  | unrecognized (u : Unrecognized)
  /-- A token in the place of an operand that is neither a number nor a cell name. -/
  | invalidReference (text : List Char) (span : Span)
  /-- The text ends where an operand has to be. -/
  | unexpectedEnd (span : Span)
  deriving DecidableEq, Repr

/-- Where the error is. -/
def FormulaError.span : FormulaError → Span
  | .unrecognized u => u.span
  | .invalidReference _ span => span
  | .unexpectedEnd span => span

/-- Adds the sums of a formula whose last operand is `last` and whose earlier ones are `pending`,
last one first. Each sum takes the next operand to its left. -/
def addSums (last : NodeId) (pending : List NodeId) (store : Store) : NodeId × Store :=
  pending.foldl (fun acc lhs => acc.2.push (.plus lhs acc.1)) (last, store)

/-- Reads operands, of which `pending` are already in the store. The span `stop` is the end of the
formula. -/
def readSum (stop : Span) (pending : List NodeId) :
    List Lexeme → Store → Except FormulaError NodeId × Store
  | [], store => (.error (.unexpectedEnd stop), store)
  | .unrecognized u :: _, store => (.error (.unrecognized u), store)
  | .token t :: rest, store =>
    match Operand.ofText? t.text with
    | none => (.error (.invalidReference t.text t.span), store)
    | some operand =>
      let (id, store) := store.push operand.node
      match rest with
      | .unrecognized u :: _ => (.error (.unrecognized u), store)
      | .token ⟨.plus, _, _⟩ :: rest => readSum stop (id :: pending) rest store
      | .token ⟨.word, _, _⟩ :: _ | [] =>
        let (root, store) := addSums id pending store
        (.ok root, store)

/-- Reads a formula, given without the sign that marks it, into a store. -/
def read (source : List Char) (store : Store) : Except FormulaError NodeId × Store :=
  readSum (.ofRange (byteLength source) (byteLength source)) [] (lexemes source) store

end PipeSheet.Formula
