import PipeSheet.Number.Decimal
/-!
# PipeSheet.Number.Reader

**Reading a number from the whole of a text.**

A number is an optional sign followed by `inf`, `infinity` or `nan` in any case, or by a decimal:
digits with at most one point among or beside them, at least one digit, and an optional exponent.
Nothing may be left over. The result is the double nearest the decimal.

* `readDecimal?`: the decimal of a text without a sign;
* `read?`: the double of a text.
-/

namespace PipeSheet.Number

/-- The value of the digits of an exponent. From 2¹⁶ on a further digit changes nothing: the decimal
is far beyond both ends of the doubles. -/
def exponentValue (digits : List Char) : Nat :=
  digits.foldl (fun n c => if n < 2 ^ 16 then 10 * n + (c.toNat - '0'.toNat) else n) 0

/-- One or more digits and nothing else, as an exponent. -/
def readExponentDigits? (digits : List Char) : Option Nat :=
  if digits ≠ [] ∧ digits.all Char.isDigit then some (exponentValue digits) else none

/-- What may follow the digits of a number: nothing, or an exponent. -/
def readExponent? : List Char → Option Int
  | [] => some 0
  | c :: rest =>
    if c = 'e' ∨ c = 'E' then
      match rest with
      | '-' :: digits => (readExponentDigits? digits).map fun n => -(n : Int)
      | '+' :: digits => (readExponentDigits? digits).map fun n => (n : Int)
      | digits => (readExponentDigits? digits).map fun n => (n : Int)
    else none

/-- The digits after a point and what follows them; without a point there are none. -/
def splitFraction : List Char → List Char × List Char
  | '.' :: rest => rest.span Char.isDigit
  | rest => ([], rest)

/-- The decimal that a text without a sign writes. -/
def readDecimal? (s : List Char) : Option Decimal :=
  let (whole, rest) := s.span Char.isDigit
  let (fraction, rest) := splitFraction rest
  if whole = [] ∧ fraction = [] then none
  else
    (readExponent? rest).map fun exponent =>
      ⟨Nat.ofDigitChars 10 (whole ++ fraction) 0, exponent - fraction.length⟩

/-- Splits off a sign; the first part says whether it is a minus. -/
def splitSign : List Char → Bool × List Char
  | '-' :: rest => (true, rest)
  | '+' :: rest => (false, rest)
  | rest => (false, rest)

/-- The double that a text without a sign writes, given the sign before it. -/
def readUnsigned? (negative : Bool) (s : List Char) : Option Float :=
  let word := s.map Char.toLower
  if word = ['i', 'n', 'f'] ∨ word = ['i', 'n', 'f', 'i', 'n', 'i', 't', 'y'] then
    some (ofPattern negative infinityPattern)
  else if word = ['n', 'a', 'n'] then
    some nan
  else
    (readDecimal? s).map fun d => ofPattern negative d.pattern

/-- The double that a text writes, if the whole text is a number. -/
def read? (s : List Char) : Option Float :=
  let (negative, rest) := splitSign s
  readUnsigned? negative rest

end PipeSheet.Number
