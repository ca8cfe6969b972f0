import PipeSheet.Proofs.Number.FixedText
/-!
# PipeSheet.Proofs.Number.ShortText

**The shortest text of a number reads as that number.**

The nearest double of a decimal depends on its value alone, not on how the value is split into a
coefficient and a power of ten. The decimal that ends the search for the shortest one has the value
of the double, every decimal that is met before is kept only if it reads back, and zeros that are
taken off the end change no value.

* `Decimal.pattern_eq`: the double of a decimal, from its value;
* `pattern_shortest`: the shortest decimal reads back;
* `read?_plain`: the law.
-/

namespace PipeSheet.Number

/-! ### Doubles and their kinds -/

variable {x : Float} {negative : Bool} {P : Nat}

theorem ofPattern_toBits (x : Float) :
    ofPattern (decide (2 ^ 63 ≤ x.toBits.toNat)) (x.toBits.toNat % 2 ^ 63) = x := by
  have hbits : (if 2 ^ 63 ≤ x.toBits.toNat then 2 ^ 63 + x.toBits.toNat % 2 ^ 63
      else x.toBits.toNat % 2 ^ 63) = x.toBits.toNat := by
    have hlt := x.toBits.toNat_lt
    split <;> omega
  unfold ofPattern
  simp only [decide_eq_true_eq]
  rw [hbits, UInt64.ofNat_toNat, ofBits_toBits]

theorem eq_of_kind_finite (h : kind x = .finite negative P) : x = ofPattern negative P := by
  unfold kind at h
  dsimp only at h
  split at h
  · cases h
    exact (ofPattern_toBits x).symm
  · split at h <;> cases h

theorem eq_of_kind_infinite (h : kind x = .infinite negative) :
    x = ofPattern negative infinityPattern := by
  unfold kind at h
  dsimp only at h
  split at h
  · cases h
  · split at h
    · next hpattern =>
      cases h
      rw [← hpattern, ofPattern_toBits]
    · cases h

theorem isNaN_of_lt {bits : BitVec 64} (h : infinityPattern < bits.toNat % 2 ^ 63) :
    IsNaN bits := by
  have hlt := bits.isLt
  unfold infinityPattern at h
  constructor
  · refine BitVec.eq_of_toNat_eq (Eq.trans (BitVec.extractLsb_toNat ..) ?_)
    show (bits.toNat >>> 52) % 2 ^ 11 = 2047
    rw [Nat.shiftRight_eq_div_pow]
    omega
  · intro hzero
    have hmantissa : bits.toNat % 2 ^ 52 = 0 := congrArg BitVec.toNat hzero
    omega

theorem eq_of_kind_nan (h : kind x = .nan) : x = nan := by
  unfold kind at h
  dsimp only at h
  split at h
  · cases h
  · split at h
    · cases h
    · rw [← ofBits_toBits x]
      refine ofBits_of_isNaN (isNaN_of_lt ?_)
      rw [UInt64.toNat_toBitVec]
      omega

/-! ### Doubles of values -/

/-- The double of a decimal, from its value written as a quotient. -/
theorem Decimal.pattern_eq {d : Decimal} {k m : Nat} (h : d.exponent + k = m) :
    d.pattern = nearestPattern (d.coefficient * 10 ^ m * unitsOfOne) (10 ^ k) := by
  have hpos : ∀ n : Nat, 0 < 10 ^ n := fun n => Nat.pow_pos (by decide)
  obtain ⟨c, e | n⟩ := d
  · obtain rfl : m = e + k := Int.ofNat.inj h.symm
    rw [Int.ofNat_eq_natCast, Decimal.pattern_ofNat, ← nearestPattern_mul_mul (hpos k), Nat.one_mul,
      Nat.pow_add, Nat.mul_right_comm, Nat.mul_assoc c]
  · obtain rfl : k = n + 1 + m := by
      dsimp only at h
      omega
    have hexponent : Int.negSucc n = 0 - ((n + 1 : Nat) : Int) := by omega
    rw [hexponent, Decimal.pattern_places, ← nearestPattern_mul_mul (hpos m),
      Nat.pow_add 10 (n + 1) m, Nat.mul_right_comm]

/-! ### The shortest decimal -/

/-- The number of places of the exact decimal of a pattern. -/
def exactPlaces (P : Nat) : Nat :=
  maxPlaces - scale P

theorem exponent_exactDecimal (P : Nat) : (exactDecimal P).exponent = -(exactPlaces P : Int) := rfl

theorem coefficient_exactDecimal_mul (P : Nat) :
    (exactDecimal P).coefficient * unitsOfOne = units P * 10 ^ exactPlaces P := by
  have hpow : 2 ^ (scale P - maxPlaces) * unitsOfOne = 2 ^ scale P * 2 ^ exactPlaces P := by
    have hsum : scale P - maxPlaces + maxPlaces = scale P + exactPlaces P := by
      unfold exactPlaces
      omega
    rw [pow_mul_unitsOfOne, hsum, Nat.pow_add]
  calc (exactDecimal P).coefficient * unitsOfOne
      = mantissa P * 2 ^ (scale P - maxPlaces) * 5 ^ exactPlaces P * unitsOfOne := rfl
    _ = mantissa P * (2 ^ (scale P - maxPlaces) * unitsOfOne) * 5 ^ exactPlaces P := by
        rw [Nat.mul_right_comm, Nat.mul_assoc (mantissa P)]
    _ = units P * (2 ^ exactPlaces P * 5 ^ exactPlaces P) := by
        rw [hpow, ← Nat.mul_assoc (mantissa P), Nat.mul_assoc, units]
    _ = units P * 10 ^ exactPlaces P := by rw [← Nat.mul_pow]

theorem pattern_exactDecimal (hP : P < infinityPattern) : (exactDecimal P).pattern = P := by
  have hexponent : (exactDecimal P).exponent + exactPlaces P = (0 : Nat) := by
    rw [exponent_exactDecimal]
    omega
  rw [Decimal.pattern_eq hexponent, Nat.pow_zero, Nat.mul_one, coefficient_exactDecimal_mul,
    nearestPattern_units (Nat.pow_pos (by decide)) hP]

/-- A neighbour is taken only if it reads back. -/
theorem pattern_of_neighbour? {d e : Decimal} {drop : Nat} (h : neighbour? P d drop = some e) :
    e.pattern = P := by
  unfold neighbour? at h
  dsimp only at h
  split at h
  · next hlower hupper =>
    obtain rfl := Option.some.inj h
    split
    · exact of_decide_eq_true hupper
    · exact of_decide_eq_true hlower
  · next hlower _ =>
    obtain rfl := Option.some.inj h
    exact of_decide_eq_true hlower
  · next _ hupper =>
    obtain rfl := Option.some.inj h
    exact of_decide_eq_true hupper
  · cases h

theorem pattern_searchGrids {exact : Decimal} (h : exact.pattern = P) (drop : Nat) :
    (searchGrids P exact drop).pattern = P := by
  induction drop with
  | zero => exact h
  | succ drop ih =>
      rw [searchGrids]
      split
      · next hfound => exact pattern_of_neighbour? hfound
      · exact ih

/-- A zero at the end may be taken off. -/
theorem pattern_div_ten {d : Decimal} (h : d.coefficient % 10 = 0) :
    (Decimal.mk (d.coefficient / 10) (d.exponent + 1)).pattern = d.pattern := by
  have hexponent : d.exponent + d.exponent.natAbs = (d.exponent + d.exponent.natAbs).toNat := by
    omega
  have hexponent' : d.exponent + 1 + d.exponent.natAbs =
      ((d.exponent + d.exponent.natAbs).toNat + 1 : Nat) := by omega
  have hcoefficient : d.coefficient / 10 * 10 = d.coefficient :=
    Nat.div_mul_cancel (Nat.dvd_of_mod_eq_zero h)
  rw [Decimal.pattern_eq hexponent, Decimal.pattern_eq (d := ⟨_, _⟩) hexponent']
  dsimp only
  rw [Nat.pow_succ', ← Nat.mul_assoc (d.coefficient / 10), hcoefficient]

theorem pattern_stripZeros (limit : Nat) (d : Decimal) :
    (stripZeros limit d).pattern = d.pattern := by
  induction limit generalizing d with
  | zero => rfl
  | succ limit ih =>
      rw [stripZeros]
      split
      · next h => rw [ih, pattern_div_ten h.2]
      · rfl

/-- The shortest decimal of a double reads back. -/
theorem pattern_shortest (hP : P < infinityPattern) : (shortest P).pattern = P := by
  unfold shortest
  split
  · next hzero =>
    rw [hzero]
    decide
  · rw [pattern_stripZeros, pattern_searchGrids (pattern_exactDecimal hP)]

/-! ### The text of a number -/

/-- A decimal written out in full reads as a decimal of the same double. -/
theorem Decimal.exists_plain (d : Decimal) : ∃ whole fraction c n, Writes whole fraction c n ∧
    d.plain = pointed whole fraction ∧ (Decimal.mk c (0 - (n : Int))).pattern = d.pattern := by
  obtain ⟨c, e | n⟩ := d
  · obtain ⟨whole, fraction, hwrites, htext⟩ := exists_positional (c * 10 ^ e) 0
    refine ⟨whole, fraction, c * 10 ^ e, 0, hwrites, htext, ?_⟩
    rw [Decimal.pattern_places, Nat.pow_zero, Int.ofNat_eq_natCast, Decimal.pattern_ofNat]
  · obtain ⟨whole, fraction, hwrites, htext⟩ := exists_positional c (n + 1)
    have hexponent : (0 : Int) - ((n + 1 : Nat) : Int) = .negSucc n := by omega
    exact ⟨whole, fraction, c, n + 1, hwrites, htext, by rw [hexponent]⟩

/-- The shortest text of a number reads as that number. -/
theorem read?_plain (x : Float) : read? (plain x) = some x := by
  unfold plain withMagnitude
  cases hx : kind x with
  | nan =>
      rw [eq_of_kind_nan hx]
      rfl
  | infinite negative =>
      rw [eq_of_kind_infinite hx]
      cases negative <;> rfl
  | finite negative P =>
      obtain ⟨whole, fraction, c, n, hwrites, htext, hpattern⟩ := (shortest P).exists_plain
      dsimp only
      rw [htext, hwrites.read?_sign_append, hpattern, pattern_shortest (lt_of_kind hx),
        ← eq_of_kind_finite hx]

end PipeSheet.Number
