/-!
# PipeSheet.Number.Double

**Every finite double is a whole number of units of 2⁻¹⁰⁷⁴.**

This makes a double an integer question: its magnitude is a natural number of units, the nearest
double of a quotient is one rounded division, and no real number is needed to read or to write one.

The 63 bits below the sign, read as a number, are the double's *pattern*. Patterns are ordered as
the magnitudes they stand for, and a magnitude of `m · 2ᵏ` units with `m < 2⁵³` has the pattern
`k · 2⁵² + m`. This holds for subnormal numbers, where `k = 0`, and also for `m = 2⁵³`: the carry
out of the mantissa lands in the exponent.

* `Kind`, `kind`: what a double is;
* `mantissa`, `scale`, `units`: the `m`, the `k` and the magnitude of a pattern;
* `roundQuotient`: the whole number nearest a quotient, half to even;
* `nearestPattern`: the pattern of the double nearest a quotient;
* `ofPattern`: the double with a sign and a pattern.
-/

namespace PipeSheet.Number

/-- Powers of natural numbers are the core library's, whatever other instances there are. -/
@[default_instance 20000]
instance (priority := 20000) powNat : Pow Nat Nat := instPowNat

/-- The pattern of infinity. All patterns below it are finite. -/
def infinityPattern : Nat := 2047 * 2 ^ 52

/-- What a double is. -/
inductive Kind where
  | nan
  | infinite (negative : Bool)
  /-- A finite double by its sign and pattern; zero has both signs. -/
  | finite (negative : Bool) (pattern : Nat)
  deriving DecidableEq, Repr

/-- Takes a double apart. -/
def kind (x : Float) : Kind :=
  let bits := x.toBits.toNat
  let negative := decide (2 ^ 63 ≤ bits)
  let pattern := bits % 2 ^ 63
  if pattern < infinityPattern then .finite negative pattern
  else if pattern = infinityPattern then .infinite negative
  else .nan

/-- The double with a sign and a pattern. -/
def ofPattern (negative : Bool) (pattern : Nat) : Float :=
  Float.ofBits (UInt64.ofNat (if negative then 2 ^ 63 + pattern else pattern))

/-- The double that is not a number. -/
def nan : Float := ofPattern false (infinityPattern + 2 ^ 51)

/-- The mantissa of a pattern. Only subnormal numbers have one below `2⁵²`. -/
def mantissa (pattern : Nat) : Nat :=
  if pattern < 2 ^ 52 then pattern else 2 ^ 52 + pattern % 2 ^ 52

/-- The power of two that a pattern's mantissa is multiplied by. -/
def scale (pattern : Nat) : Nat :=
  pattern / 2 ^ 52 - 1

/-- The magnitude of a pattern, in units of 2⁻¹⁰⁷⁴. -/
def units (pattern : Nat) : Nat :=
  mantissa pattern * 2 ^ scale pattern

/-- The whole number nearest `num / den`; halfway between two, the even one. -/
def roundQuotient (num den : Nat) : Nat :=
  let low := num / den
  let twice := 2 * (num % den)
  if twice < den ∨ (twice = den ∧ low % 2 = 0) then low else low + 1

/-- The pattern of the double nearest `num / den` units; halfway between two, the one with an even
mantissa. What is too large for a double becomes infinity. -/
def nearestPattern (num den : Nat) : Nat :=
  let scale := (num / den).log2 + 1 - 53
  min (scale * 2 ^ 52 + roundQuotient num (den * 2 ^ scale)) infinityPattern

end PipeSheet.Number
