import PipeSheet.Number.Double
/-!
# PipeSheet.Number.Decimal

**A decimal is a whole coefficient and a power of ten.** It is what a number's text says, before a
double is chosen for it and after one has been.

* `naturalOf?`: the value of a run of digits, if it fits into 64 bits;
* `Decimal.pattern`: the pattern of the nearest double;
* `positional`: a coefficient written with a number of places after the point.
-/

namespace PipeSheet.Number

/-- The limit of the whole numbers that name rows or precisions. -/
def naturalLimit : Nat := 2 ^ 64

/-- The number that one or more decimal digits write, if it is below the limit. -/
def naturalOf? (digits : List Char) : Option Nat :=
  if digits ≠ [] ∧ digits.all Char.isDigit ∧ Nat.ofDigitChars 10 digits 0 < naturalLimit then
    some (Nat.ofDigitChars 10 digits 0)
  else
    none

/-- The number `coefficient · 10 ^ exponent`. -/
structure Decimal where
  coefficient : Nat
  exponent : Int
  deriving DecidableEq, Repr

/-- The pattern of the double nearest a decimal.

From 10³¹⁰ on every decimal is beyond the largest double. A decimal below 2⁻¹⁰⁷⁶ is below half a
unit, and `10 ^ -f` is at most `2 ^ (-3 * f)`. Sorting these out first keeps the powers of ten in
proportion to the text that asks for them. -/
def Decimal.pattern (d : Decimal) : Nat :=
  match d.exponent with
  | .ofNat e =>
    if d.coefficient = 0 then 0
    else if 310 ≤ e then infinityPattern
    else nearestPattern (d.coefficient * 10 ^ e * 2 ^ 1074) 1
  | .negSucc e =>
    if d.coefficient.log2 + 1077 ≤ 3 * (e + 1) then 0
    else nearestPattern (d.coefficient * 2 ^ 1074) (10 ^ (e + 1))

/-- `coefficient · 10 ^ -places` with all its places: at least one digit stands before the point,
and a point only before digits. -/
def positional (coefficient places : Nat) : List Char :=
  let digits := (Nat.toDigits 10 coefficient).leftpad (places + 1) '0'
  let whole := digits.take (digits.length - places)
  if places = 0 then whole else whole ++ '.' :: digits.drop (digits.length - places)

end PipeSheet.Number
