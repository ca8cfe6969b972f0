import PipeSheet.Number.Decimal
/-!
# PipeSheet.Number.Printer

**The three texts of a number.**

* `plain`: the shortest decimal that reads back, written out in full;
* `detailed`: the same decimal, always recognisable as a number with a fraction, and with an
  exponent where it is very large or very small;
* `fixed`: the exact value rounded to a number of places, half to even.

The shortest decimal is found as it is defined. Every double is a decimal, since `2⁻ᵏ = 5ᵏ · 10⁻ᵏ`.
On the grid of one significant digit, then of two, and so on, the two neighbours of that exact
decimal are read back; the first grid with a neighbour that gives the same double decides, and of
two the nearer one is taken, halfway the larger one. The exact decimal stands at the end of the
search, so the result reads back in every case.
-/

namespace PipeSheet.Number

/-! ### The shortest decimal -/

/-- The exact value of a pattern. -/
def exactDecimal (pattern : Nat) : Decimal :=
  let places := 1074 - scale pattern
  ⟨mantissa pattern * 2 ^ (scale pattern - 1074) * 5 ^ places, -(places : Int)⟩

/-- The two neighbours of a decimal on the grid that leaves out its last `drop` digits. -/
def Decimal.neighbours (d : Decimal) (drop : Nat) : Decimal × Decimal :=
  (⟨d.coefficient / 10 ^ drop, d.exponent + drop⟩,
    ⟨d.coefficient / 10 ^ drop + 1, d.exponent + drop⟩)

/-- Whether the larger neighbour is no farther from a decimal than the smaller one. -/
def Decimal.upperNearer (d : Decimal) (drop : Nat) : Bool :=
  10 ^ drop ≤ 2 * (d.coefficient % 10 ^ drop)

/-- The neighbour of a decimal that reads back as `pattern`, if there is one. -/
def neighbour? (pattern : Nat) (d : Decimal) (drop : Nat) : Option Decimal :=
  let (lower, upper) := d.neighbours drop
  match decide (lower.pattern = pattern), decide (upper.pattern = pattern) with
  | true, true => some (if d.upperNearer drop then upper else lower)
  | true, false => some lower
  | false, true => some upper
  | false, false => none

/-- Searches the grids with `drop`, `drop - 1`, … digits left out. -/
def searchGrids (pattern : Nat) (exact : Decimal) : Nat → Decimal
  | 0 => exact
  | drop + 1 =>
    match neighbour? pattern exact (drop + 1) with
    | some d => d
    | none => searchGrids pattern exact drop

/-- Takes zeros off the end of a coefficient, at most `limit` of them. -/
def stripZeros : Nat → Decimal → Decimal
  | 0, d => d
  | limit + 1, d =>
    if d.coefficient ≠ 0 ∧ d.coefficient % 10 = 0 then
      stripZeros limit ⟨d.coefficient / 10, d.exponent + 1⟩
    else d

/-- The decimal with the fewest digits that reads back as `pattern`. -/
def shortest (pattern : Nat) : Decimal :=
  if pattern = 0 then ⟨0, 0⟩
  else
    let exact := exactDecimal pattern
    let digits := (Nat.toDigits 10 exact.coefficient).length
    stripZeros digits (searchGrids pattern exact (digits - 1))

/-! ### Texts -/

/-- The minus of a negative number. -/
def sign (negative : Bool) : List Char :=
  if negative then ['-'] else []

/-- A decimal written out in full. -/
def Decimal.plain (d : Decimal) : List Char :=
  match d.exponent with
  | .ofNat e => positional (d.coefficient * 10 ^ e) 0
  | .negSucc e => positional d.coefficient (e + 1)

/-- A decimal with one digit before the point and an exponent. -/
def Decimal.scientific (d : Decimal) : List Char :=
  let digits := Nat.toDigits 10 d.coefficient
  let exponent : Int := d.exponent + (digits.length - 1 : Nat)
  let power := sign (exponent < 0) ++ Nat.toDigits 10 exponent.natAbs
  let fraction := digits.drop 1
  digits.take 1 ++ (if fraction = [] then [] else '.' :: fraction) ++ 'e' :: power

/-- The power of ten of a decimal's first digit. -/
def Decimal.magnitude (d : Decimal) : Int :=
  d.exponent + ((Nat.toDigits 10 d.coefficient).length - 1 : Nat)

/-- A decimal with a point: written out in full from 10⁻⁴ to below 10¹⁶, and with an exponent
elsewhere. -/
def Decimal.detailed (d : Decimal) : List Char :=
  if d.coefficient = 0 ∨ (-4 ≤ d.magnitude ∧ d.magnitude < 16) then
    if 0 ≤ d.exponent then d.plain ++ ['.', '0'] else d.plain
  else
    d.scientific

/-- The text of a double whose finite magnitudes are written by `finite`. -/
def withMagnitude (finite : Nat → List Char) (x : Float) : List Char :=
  match kind x with
  | .nan => ['N', 'a', 'N']
  | .infinite negative => sign negative ++ ['i', 'n', 'f']
  | .finite negative pattern => sign negative ++ finite pattern

/-- The shortest text of a double, without an exponent. -/
def plain (x : Float) : List Char :=
  withMagnitude (fun pattern => (shortest pattern).plain) x

/-- The text of a double that shows it to be one. -/
def detailed (x : Float) : List Char :=
  withMagnitude (fun pattern => (shortest pattern).detailed) x

/-- A double has at most this many places. -/
def maxPlaces : Nat := 1074

/-- A magnitude with `places` places. Beyond the 1074 that a double can have, all are zero. -/
def fixedMagnitude (places pattern : Nat) : List Char :=
  let kept := min places maxPlaces
  positional (roundQuotient (units pattern * 10 ^ kept) (2 ^ 1074)) kept ++
    List.replicate (places - kept) '0'

/-- The text of a double with `places` places after the point. -/
def fixed (places : Nat) (x : Float) : List Char :=
  withMagnitude (fixedMagnitude places) x

end PipeSheet.Number
