import Mathlib.Data.Nat.Dist
import PipeSheet.Number.Decimal
/-!
# PipeSheet.Proofs.Number.Rounding

**The double that is chosen for a decimal is a nearest one.**

Magnitudes are compared as whole numbers: that `units P` is as near to `num / den` as anything is
said of `units P * den` and `num`. All doubles from `2 ^ (s + 52)` units on are multiples of
`2 ^ s`, and the smaller ones are no nearer to what is larger than all of them; so rounding to a
multiple of `2 ^ s` rounds to a double.

* `roundQuotient_nearest`, `roundQuotient_eq`: the nearest whole number, and when it is a given one;
* `units_add`: the magnitude that a mantissa and a scale make;
* `units_nearest`, `nearestPattern_units`: the nearest double, and doubles that are met exactly.
-/

namespace PipeSheet.Number

/-! ### Nearest whole numbers -/

variable {num den : Nat}

/-- The rounded quotient is at most half a unit away, and even where it is that far. -/
theorem roundQuotient_spec (num : Nat) (hden : 0 < den) :
    2 * Nat.dist (roundQuotient num den * den) num ≤ den ∧
      (2 * Nat.dist (roundQuotient num den * den) num = den → roundQuotient num den % 2 = 0) := by
  have hdiv := Nat.div_add_mod' num den
  have hmod := Nat.mod_lt num hden
  have hnext : (num / den + 1) * den = num / den * den + den := Nat.succ_mul _ _
  unfold roundQuotient Nat.dist
  dsimp only
  split
  · omega
  · rw [hnext]
    omega

/-- A whole number that is less than half a unit away is the rounded quotient, and so is an even one
that is half a unit away. -/
theorem roundQuotient_eq {n : Nat} (hden : 0 < den) (hnear : 2 * Nat.dist (n * den) num ≤ den)
    (htie : 2 * Nat.dist (n * den) num = den → n % 2 = 0) : roundQuotient num den = n := by
  obtain ⟨hnear', htie'⟩ := roundQuotient_spec num hden
  generalize roundQuotient num den = m at *
  unfold Nat.dist at *
  -- Two candidates that differ are both half a unit away, and neighbours, so one of them is odd.
  rcases Nat.lt_trichotomy m n with h | h | h
  · have hstep : m * den + den ≤ n * den := Nat.succ_mul m den ▸ Nat.mul_le_mul_right den h
    have hnext : n ≤ m + 1 := by
      refine Nat.le_of_mul_le_mul_right ?_ hden
      rw [Nat.succ_mul]
      omega
    omega
  · exact h
  · have hstep : n * den + den ≤ m * den := Nat.succ_mul n den ▸ Nat.mul_le_mul_right den h
    have hnext : m ≤ n + 1 := by
      refine Nat.le_of_mul_le_mul_right ?_ hden
      rw [Nat.succ_mul]
      omega
    omega

/-- What is as near to a rounded quotient as the number that was rounded has the same rounded
quotient. -/
theorem roundQuotient_eq_of_nearer {num' : Nat} (hden : 0 < den)
    (h : Nat.dist (roundQuotient num den * den) num' ≤ Nat.dist (roundQuotient num den * den) num) :
    roundQuotient num' den = roundQuotient num den := by
  obtain ⟨hnear, htie⟩ := roundQuotient_spec num hden
  refine roundQuotient_eq hden (Nat.le_trans (Nat.mul_le_mul_left 2 h) hnear) fun hhalf => ?_
  exact htie
    (Nat.le_antisymm hnear (Nat.le_trans (Nat.le_of_eq hhalf.symm) (Nat.mul_le_mul_left 2 h)))

theorem roundQuotient_nearest (num : Nat) (hden : 0 < den) (n : Nat) :
    Nat.dist (roundQuotient num den * den) num ≤ Nat.dist (n * den) num := by
  obtain ⟨hnear, _⟩ := roundQuotient_spec num hden
  generalize roundQuotient num den = m at *
  unfold Nat.dist at *
  rcases Nat.lt_trichotomy m n with h | h | h
  · have hstep : m * den + den ≤ n * den := Nat.succ_mul m den ▸ Nat.mul_le_mul_right den h
    omega
  · rw [h]
  · have hstep : n * den + den ≤ m * den := Nat.succ_mul n den ▸ Nat.mul_le_mul_right den h
    omega

theorem roundQuotient_mul (hden : 0 < den) (n : Nat) : roundQuotient (n * den) den = n := by
  refine roundQuotient_eq hden ?_ ?_
  · simp [Nat.dist_self]
  · intro h
    rw [Nat.dist_self] at h
    omega

theorem roundQuotient_le {n : Nat} (hden : 0 < den) (h : num ≤ n * den) :
    roundQuotient num den ≤ n := by
  obtain ⟨hnear, htie⟩ := roundQuotient_spec num hden
  generalize roundQuotient num den = m at *
  unfold Nat.dist at *
  refine Nat.le_of_not_lt fun hlt => ?_
  have hstep : n * den + den ≤ m * den := Nat.succ_mul n den ▸ Nat.mul_le_mul_right den hlt
  omega

theorem le_roundQuotient {n : Nat} (hden : 0 < den) (h : n * den ≤ num) :
    n ≤ roundQuotient num den := by
  obtain ⟨hnear, htie⟩ := roundQuotient_spec num hden
  generalize roundQuotient num den = m at *
  unfold Nat.dist at *
  refine Nat.le_of_not_lt fun hlt => ?_
  have hstep : m * den + den ≤ n * den := Nat.succ_mul m den ▸ Nat.mul_le_mul_right den hlt
  omega

/-- Only the quotient counts. -/
theorem roundQuotient_mul_mul {k : Nat} (hk : 0 < k) (num den : Nat) :
    roundQuotient (num * k) (den * k) = roundQuotient num den := by
  have hmod : 2 * (num * k % (den * k)) = 2 * (num % den) * k := by
    rw [Nat.mul_mod_mul_right, Nat.mul_assoc]
  unfold roundQuotient
  dsimp only
  rw [hmod, Nat.mul_div_mul_right num den hk]
  simp only [Nat.mul_lt_mul_right hk, Nat.mul_left_inj (Nat.pos_iff_ne_zero.1 hk)]

/-! ### Patterns and magnitudes -/

/-- A mantissa and a scale make a pattern of their magnitude. The mantissa may be one too large, and
it may be below `2 ^ 52` only where the scale is least. -/
theorem units_add {m s : Nat} (hm : m ≤ 2 ^ 53) (hs : s = 0 ∨ 2 ^ 52 ≤ m) :
    units (s * 2 ^ 52 + m) = m * 2 ^ s := by
  unfold units mantissa scale
  rcases Nat.lt_or_ge m (2 ^ 52) with hlt | hge
  · obtain rfl : s = 0 := hs.resolve_right (by omega)
    rw [if_pos (by omega), Nat.zero_mul, Nat.zero_add, Nat.div_eq_of_lt hlt]
  · rcases Nat.lt_or_ge m (2 ^ 53) with hlt | hge'
    · have hdiv : (s * 2 ^ 52 + m) / 2 ^ 52 = s + 1 := by omega
      have hmod : (s * 2 ^ 52 + m) % 2 ^ 52 = m - 2 ^ 52 := by omega
      rw [if_neg (by omega), hdiv, hmod, Nat.add_sub_cancel, Nat.add_sub_cancel' hge]
    -- The carry out of the mantissa doubles the unit.
    · obtain rfl : m = 2 ^ 53 := Nat.le_antisymm hm hge'
      have hdiv : (s * 2 ^ 52 + 2 ^ 53) / 2 ^ 52 = s + 1 + 1 := by omega
      have hmod : (s * 2 ^ 52 + 2 ^ 53) % 2 ^ 52 = 0 := by omega
      rw [if_neg (by omega), hdiv, hmod, Nat.add_sub_cancel, Nat.add_zero, Nat.pow_succ 2 s,
        show (2 : Nat) ^ 53 = 2 ^ 52 * 2 from rfl, Nat.mul_assoc, Nat.mul_comm 2]

theorem mantissa_lt (P : Nat) : mantissa P < 2 ^ 53 := by
  have := Nat.mod_lt P (show 0 < 2 ^ 52 by decide)
  unfold mantissa
  split <;> omega

theorem scale_eq_zero_or (P : Nat) : scale P = 0 ∨ 2 ^ 52 ≤ mantissa P := by
  unfold scale mantissa
  split
  · left
    omega
  · right
    omega

/-- A pattern is made of its mantissa and its scale. -/
theorem scale_add_mantissa (P : Nat) : scale P * 2 ^ 52 + mantissa P = P := by
  unfold scale mantissa
  split <;> omega

/-! ### Nearest doubles -/

/-- The scale of the doubles that are as large as a quotient. -/
def quotientScale (num den : Nat) : Nat :=
  (num / den).log2 + 1 - 53

theorem lt_of_quotientScale (hden : 0 < den) :
    num < 2 ^ 53 * (den * 2 ^ quotientScale num den) := by
  have hlog : num / den < 2 ^ ((num / den).log2 + 1) := Nat.lt_log2_self
  have hle : 2 ^ ((num / den).log2 + 1) ≤ 2 ^ (53 + quotientScale num den) :=
    Nat.pow_le_pow_right (by decide) (by unfold quotientScale; omega)
  have hlt := (Nat.div_lt_iff_lt_mul hden).1 (Nat.lt_of_lt_of_le hlog hle)
  rwa [Nat.pow_add, Nat.mul_assoc, Nat.mul_comm _ den] at hlt

theorem le_of_quotientScale (num : Nat) (hden : 0 < den) (hs : quotientScale num den ≠ 0) :
    2 ^ 52 * (den * 2 ^ quotientScale num den) ≤ num := by
  have hne : num / den ≠ 0 := by
    intro h
    simp [quotientScale, h] at hs
  have hexp : 52 + quotientScale num den = (num / den).log2 := by
    unfold quotientScale at hs ⊢
    omega
  have hle := (Nat.le_div_iff_mul_le hden).1 (Nat.log2_self_le hne)
  rwa [← hexp, Nat.pow_add, Nat.mul_assoc, Nat.mul_comm _ den] at hle

/-- The mantissa of the nearest double. -/
def quotientMantissa (num den : Nat) : Nat :=
  roundQuotient num (den * 2 ^ quotientScale num den)

theorem nearestPattern_eq_min (num den : Nat) : nearestPattern num den =
    min (quotientScale num den * 2 ^ 52 + quotientMantissa num den) infinityPattern := rfl

theorem den_mul_pos (hden : 0 < den) (s : Nat) : 0 < den * 2 ^ s :=
  Nat.mul_pos hden (Nat.two_pow_pos s)

theorem quotientMantissa_le (num : Nat) (hden : 0 < den) : quotientMantissa num den ≤ 2 ^ 53 :=
  roundQuotient_le (den_mul_pos hden _) (Nat.le_of_lt (lt_of_quotientScale hden))

theorem quotientScale_eq_zero_or (hden : 0 < den) :
    quotientScale num den = 0 ∨ 2 ^ 52 ≤ quotientMantissa num den := by
  by_cases hs : quotientScale num den = 0
  · exact .inl hs
  · exact .inr (le_roundQuotient (den_mul_pos hden _) (le_of_quotientScale num hden hs))

/-- The magnitude of the nearest double, unless it is infinite. -/
theorem units_nearestPattern (hden : 0 < den) (hfin : nearestPattern num den < infinityPattern) :
    units (nearestPattern num den) = quotientMantissa num den * 2 ^ quotientScale num den := by
  have heq : nearestPattern num den =
      quotientScale num den * 2 ^ 52 + quotientMantissa num den := by
    rw [nearestPattern_eq_min] at hfin ⊢
    omega
  rw [heq, units_add (quotientMantissa_le num hden) (quotientScale_eq_zero_or hden)]

/-- No double is nearer to a quotient than the one that is chosen. -/
theorem units_nearest (hden : 0 < den) (hfin : nearestPattern num den < infinityPattern) (P : Nat) :
    Nat.dist (units (nearestPattern num den) * den) num ≤ Nat.dist (units P * den) num := by
  have hnear := roundQuotient_nearest num (den_mul_pos hden (quotientScale num den))
  have hunits : units (nearestPattern num den) * den =
      quotientMantissa num den * (den * 2 ^ quotientScale num den) := by
    rw [units_nearestPattern hden hfin]
    ac_rfl
  rw [hunits]
  rcases Nat.lt_or_ge (scale P) (quotientScale num den) with hlt | hge
  -- The double is below the binade of the quotient, and so is the least double of that binade.
  · have hleast := hnear (2 ^ 52)
    have hbelow := le_of_quotientScale num hden (by omega)
    have hP : units P ≤ 2 ^ 52 * 2 ^ quotientScale num den := by
      have hle : 2 ^ scale P * 2 ≤ 2 ^ quotientScale num den := by
        rw [← Nat.pow_succ]
        exact Nat.pow_le_pow_right (by decide) hlt
      calc units P ≤ 2 ^ 53 * 2 ^ scale P :=
            Nat.mul_le_mul_right _ (Nat.le_of_lt (mantissa_lt P))
        _ = 2 ^ 52 * (2 ^ scale P * 2) := by
            rw [show (2 : Nat) ^ 53 = 2 ^ 52 * 2 from rfl]
            ac_rfl
        _ ≤ _ := Nat.mul_le_mul_left _ hle
    have hPden : units P * den ≤ 2 ^ 52 * (den * 2 ^ quotientScale num den) := by
      calc units P * den ≤ 2 ^ 52 * 2 ^ quotientScale num den * den := Nat.mul_le_mul_right _ hP
        _ = _ := by ac_rfl
    refine Nat.le_trans hleast ?_
    unfold Nat.dist
    omega
  -- The double is a multiple of the unit.
  · have hmultiple : units P * den =
        mantissa P * 2 ^ (scale P - quotientScale num den) * (den * 2 ^ quotientScale num den) := by
      have hpow : 2 ^ scale P =
          2 ^ (scale P - quotientScale num den) * 2 ^ quotientScale num den := by
        rw [← Nat.pow_add, Nat.sub_add_cancel hge]
      rw [units, hpow]
      ac_rfl
    rw [hmultiple]
    exact hnear _

/-- A quotient that is not too large has a finite nearest double. -/
theorem nearestPattern_lt {e : Nat} (hden : 0 < den) (he : e ≤ 2097) (h : num < 2 ^ e * den) :
    nearestPattern num den < infinityPattern := by
  have hm := quotientMantissa_le num hden
  have hs : quotientScale num den ≤ 2044 := by
    have hlog : (num / den).log2 ≤ e - 1 := by
      rcases Nat.eq_zero_or_pos (num / den) with h0 | hpos
      · simp [h0]
      · have := (Nat.log2_lt (by omega)).2 ((Nat.div_lt_iff_lt_mul hden).2 h)
        omega
    unfold quotientScale
    omega
  rw [nearestPattern_eq_min]
  unfold infinityPattern
  omega

/-- Only the quotient counts. -/
theorem nearestPattern_mul_mul {k : Nat} (hk : 0 < k) (num den : Nat) :
    nearestPattern (num * k) (den * k) = nearestPattern num den := by
  unfold nearestPattern
  dsimp only
  rw [Nat.mul_div_mul_right num den hk, Nat.mul_right_comm den k, roundQuotient_mul_mul hk]

/-- At most half a unit is zero. -/
theorem nearestPattern_eq_zero (h : 2 * num ≤ den) : nearestPattern num den = 0 := by
  rcases Nat.eq_zero_or_pos den with rfl | hden
  · obtain rfl : num = 0 := by omega
    decide
  · have hdiv : num / den = 0 := Nat.div_eq_of_lt (by omega)
    have hround : roundQuotient num (den * 2 ^ 0) = 0 := by
      refine roundQuotient_eq (den_mul_pos hden 0) ?_ fun _ => rfl
      rw [Nat.zero_mul, Nat.dist_eq_sub_of_le (Nat.zero_le num), Nat.pow_zero]
      omega
    unfold nearestPattern
    dsimp only
    rw [hdiv, show Nat.log2 0 + 1 - 53 = 0 from rfl, hround]
    rfl

/-- What is far too large is infinite. -/
theorem nearestPattern_eq_infinity {e : Nat} (hden : 0 < den) (he : 2099 ≤ e)
    (h : 2 ^ e * den ≤ num) : nearestPattern num den = infinityPattern := by
  have hquotient := (Nat.le_div_iff_mul_le hden).2 h
  have hne : num / den ≠ 0 :=
    Nat.pos_iff_ne_zero.1 (Nat.lt_of_lt_of_le (Nat.two_pow_pos e) hquotient)
  have hlog := (Nat.le_log2 hne).2 hquotient
  have hscale : 2047 ≤ quotientScale num den := by
    unfold quotientScale
    omega
  rw [nearestPattern_eq_min]
  unfold infinityPattern
  omega

/-- A double that is met exactly is chosen. -/
theorem nearestPattern_units {P : Nat} (hden : 0 < den) (hP : P < infinityPattern) :
    nearestPattern (units P * den) den = P := by
  have hscale : quotientScale (units P * den) den = scale P := by
    rw [quotientScale, Nat.mul_div_cancel _ hden]
    rcases scale_eq_zero_or P with h0 | hm
    · have hlt : units P < 2 ^ 53 := by
        rw [units, h0]
        simpa using mantissa_lt P
      have hlog : (units P).log2 < 53 := by
        rcases Nat.eq_zero_or_pos (units P) with h | h
        · simp [h]
        · exact (Nat.log2_lt (by omega)).2 hlt
      omega
    · have hlog : (units P).log2 = 52 + scale P := by
        refine (Nat.log2_eq_iff ?_).2 ⟨?_, ?_⟩
        · have := Nat.mul_pos (Nat.lt_of_lt_of_le (by decide) hm) (Nat.two_pow_pos (scale P))
          exact Nat.pos_iff_ne_zero.1 this
        · rw [Nat.pow_add]
          exact Nat.mul_le_mul_right _ hm
        · rw [Nat.add_right_comm, Nat.pow_add]
          exact Nat.mul_lt_mul_of_pos_right (mantissa_lt P) (Nat.two_pow_pos _)
      omega
  have hmantissa : quotientMantissa (units P * den) den = mantissa P := by
    have hunits : units P * den = mantissa P * (den * 2 ^ scale P) := by
      rw [units]
      ac_rfl
    rw [quotientMantissa, hscale, hunits, roundQuotient_mul (den_mul_pos hden _)]
  rw [nearestPattern_eq_min, hscale, hmantissa, scale_add_mantissa]
  exact Nat.min_eq_left (Nat.le_of_lt hP)

end PipeSheet.Number
