import Mathlib.Data.List.TakeDrop
import PipeSheet.Number.Printer
import PipeSheet.Number.Reader
import PipeSheet.Proofs.Number.Bits
import PipeSheet.Proofs.Number.Rounding
import PipeSheet.Proofs.Text.Characters
/-!
# PipeSheet.Proofs.Number.FixedText

**A number in fixed places reads as a number with the same text.**

It need not be the same number: the text is rounded, and the double that is read is the one nearest
to what is left. That double is at least as near to the text as the one that was written, which is
at most half a place away. So it is at most half a place away as well, and where it is exactly that,
so was the other, and the text has an even last digit: it rounds to the same text.

* `Decimal.pattern_places`: the double of a decimal with some places;
* `Writes.readDecimal?_pointed`: reading digits with a point;
* `read?_fixed`: the law.
-/

namespace PipeSheet.Number

/-! ### Doubles from patterns -/

theorem toBits_ofBits_of_not_isNaN {bits : UInt64} (h : ¬ IsNaN bits.toBitVec) :
    (Float.ofBits bits).toBits = bits :=
  congrArg UInt64.ofBitVec (pack_unpack h)

theorem exponent_eq_of_isNaN {b : BitVec 64} (h : IsNaN b) : b.toNat / 2 ^ 52 % 2 ^ 11 = 2047 := by
  have hexponent : (BitVec.extractLsb (52 + 11 - 1) 52 b).toNat = 2047 := congrArg BitVec.toNat h.1
  rwa [BitVec.extractLsb_toNat, Nat.shiftRight_eq_div_pow] at hexponent

theorem toNat_bits {P : Nat} (negative : Bool) (hP : P < 2 ^ 63) :
    (UInt64.ofNat (if negative then 2 ^ 63 + P else P)).toNat =
      if negative then 2 ^ 63 + P else P :=
  UInt64.toNat_ofNat_of_lt' (by split <;> simp [UInt64.size] <;> omega)

/-- A finite pattern is found again in its double. -/
theorem kind_ofPattern {P : Nat} (negative : Bool) (hP : P < infinityPattern) :
    kind (ofPattern negative P) = .finite negative P := by
  unfold infinityPattern at hP
  have hbits := toNat_bits negative (P := P) (by omega)
  have hnan : ¬ IsNaN (UInt64.ofNat (if negative then 2 ^ 63 + P else P)).toBitVec := by
    intro h
    have hexponent := exponent_eq_of_isNaN h
    rw [UInt64.toNat_toBitVec, hbits] at hexponent
    split at hexponent <;> omega
  unfold kind ofPattern
  dsimp only
  rw [toBits_ofBits_of_not_isNaN hnan, hbits]
  unfold infinityPattern
  cases negative
  · have hmod : P % 2 ^ 63 = P := Nat.mod_eq_of_lt (by omega)
    have hsign : ¬ 2 ^ 63 ≤ P := by omega
    simp only [Bool.false_eq_true, if_false, hmod, if_pos hP, hsign, decide_false]
  · have hmod : (2 ^ 63 + P) % 2 ^ 63 = P := by omega
    have hsign : 2 ^ 63 ≤ 2 ^ 63 + P := by omega
    simp only [if_true, hmod, if_pos hP, hsign, decide_true]

theorem kind_infinite :
    ∀ negative, kind (ofPattern negative infinityPattern) = .infinite negative := by
  decide +kernel

theorem kind_nan : kind nan = .nan := by
  decide +kernel

/-! ### Doubles of decimals -/

/-- The number of units in one. -/
def unitsOfOne : Nat := 2 ^ maxPlaces

theorem unitsOfOne_eq : unitsOfOne = 2 ^ 1074 := by
  rw [unitsOfOne, maxPlaces]

theorem unitsOfOne_pos : 0 < unitsOfOne :=
  Nat.two_pow_pos _

theorem pow_mul_unitsOfOne (e : Nat) : 2 ^ e * unitsOfOne = 2 ^ (e + maxPlaces) := by
  rw [unitsOfOne, ← Nat.pow_add]

/-- The double of a decimal without places is the nearest one. -/
theorem Decimal.pattern_ofNat (c e : Nat) :
    (Decimal.mk c e).pattern = nearestPattern (c * 10 ^ e * unitsOfOne) 1 := by
  have hpattern : (Decimal.mk c e).pattern = if c = 0 then 0 else if 310 ≤ e then infinityPattern
      else nearestPattern (c * 10 ^ e * unitsOfOne) 1 := by
    rw [unitsOfOne_eq]
    rfl
  rw [hpattern]
  by_cases hc : c = 0
  · rw [if_pos hc, hc, Nat.zero_mul, Nat.zero_mul, nearestPattern_eq_zero (Nat.zero_le _)]
  · rw [if_neg hc]
    by_cases he : 310 ≤ e
    -- The power of ten alone is beyond all doubles.
    · have hpow : ∀ k, 62 * k ≤ e → 2 ^ (205 * k) ≤ 10 ^ e := fun k hk =>
        calc 2 ^ (205 * k) = (2 ^ 205) ^ k := Nat.pow_mul 2 205 k
          _ ≤ (10 ^ 62) ^ k := Nat.pow_le_pow_left (by decide) k
          _ = 10 ^ (62 * k) := (Nat.pow_mul 10 62 k).symm
          _ ≤ 10 ^ e := Nat.pow_le_pow_right (by decide) hk
      rw [if_pos he, nearestPattern_eq_infinity (e := 205 * 5 + maxPlaces) Nat.one_pos (by decide)]
      calc 2 ^ (205 * 5 + maxPlaces) * 1 = 2 ^ (205 * 5) * unitsOfOne := by
            rw [Nat.mul_one, pow_mul_unitsOfOne]
        _ ≤ c * 10 ^ e * unitsOfOne := by
            refine Nat.mul_le_mul_right _ (Nat.le_trans (hpow 5 (by omega)) ?_)
            exact Nat.le_mul_of_pos_left _ (Nat.pos_iff_ne_zero.2 hc)
    · rw [if_neg he]

/-- The double of a decimal with `n` places is the nearest one. -/
theorem Decimal.pattern_places (c n : Nat) :
    (Decimal.mk c (0 - (n : Int))).pattern = nearestPattern (c * unitsOfOne) (10 ^ n) := by
  cases n with
  | zero =>
      have hpattern := Decimal.pattern_ofNat c 0
      rwa [Nat.pow_zero, Nat.mul_one] at hpattern
  | succ e =>
      have hexponent : (0 : Int) - ((e + 1 : Nat) : Int) = .negSucc e := by omega
      have hpattern : (Decimal.mk c (.negSucc e)).pattern =
          if c.log2 + 1077 ≤ 3 * (e + 1) then 0
          else nearestPattern (c * unitsOfOne) (10 ^ (e + 1)) := by
        rw [unitsOfOne_eq]
        rfl
      rw [hexponent, hpattern]
      by_cases hsmall : c.log2 + 1077 ≤ 3 * (e + 1)
      -- The decimal is at most half a unit.
      · rw [if_pos hsmall, nearestPattern_eq_zero]
        calc 2 * (c * unitsOfOne) = 2 * c * unitsOfOne := (Nat.mul_assoc 2 c _).symm
          _ ≤ 2 * 2 ^ (c.log2 + 1) * unitsOfOne :=
              Nat.mul_le_mul_right _ (Nat.mul_le_mul_left 2 (Nat.le_of_lt Nat.lt_log2_self))
          _ = 2 ^ (c.log2 + 1 + 1) * unitsOfOne := by rw [Nat.pow_succ' (n := c.log2 + 1)]
          _ = 2 ^ (c.log2 + 1 + 1 + maxPlaces) := pow_mul_unitsOfOne _
          _ ≤ 2 ^ (3 * (e + 1)) := Nat.pow_le_pow_right (by decide) (by unfold maxPlaces; omega)
          _ = (2 ^ 3) ^ (e + 1) := Nat.pow_mul 2 3 _
          _ ≤ 10 ^ (e + 1) := Nat.pow_le_pow_left (by decide) _
      · rw [if_neg hsmall]

variable {c n : Nat}

theorem Decimal.pattern_nearest (hfin : (Decimal.mk c (0 - (n : Int))).pattern < infinityPattern)
    (P : Nat) : Nat.dist (units (Decimal.mk c (0 - (n : Int))).pattern * 10 ^ n) (c * unitsOfOne) ≤
      Nat.dist (units P * 10 ^ n) (c * unitsOfOne) := by
  rw [Decimal.pattern_places] at hfin ⊢
  exact units_nearest (Nat.pow_pos (by decide)) hfin P

/-- A decimal that is a double, or not too large, has a finite double. -/
theorem Decimal.pattern_lt {P e : Nat} (hP : P < infinityPattern) (he : e ≤ 2097)
    (h : c * unitsOfOne = units P * 10 ^ n ∨ c * unitsOfOne < 2 ^ e * 10 ^ n) :
    (Decimal.mk c (0 - (n : Int))).pattern < infinityPattern := by
  have hpos : 0 < 10 ^ n := Nat.pow_pos (by decide)
  rw [Decimal.pattern_places]
  rcases h with h | h
  · rw [h, nearestPattern_units hpos hP]
    exact hP
  · exact nearestPattern_lt hpos he h

/-! ### Rounding to places and back -/

/-- A magnitude with `k` places, as a whole number of units of the last place. -/
def inPlaces (k P : Nat) : Nat :=
  roundQuotient (units P * 10 ^ k) unitsOfOne

/-- A double either is large and has no fraction, or it is small. -/
theorem inPlaces_exact_or (k P : Nat) :
    inPlaces k P * unitsOfOne = units P * 10 ^ k ∨ units P < 2 ^ 53 * unitsOfOne := by
  rcases Nat.lt_or_ge (scale P) maxPlaces with hlt | hge
  · right
    have hscale : 2 ^ scale P ≤ unitsOfOne :=
      Nat.pow_le_pow_right (by decide) (Nat.le_of_lt hlt)
    calc units P < 2 ^ 53 * 2 ^ scale P :=
          Nat.mul_lt_mul_of_pos_right (mantissa_lt P) (Nat.two_pow_pos _)
      _ ≤ 2 ^ 53 * unitsOfOne := Nat.mul_le_mul_left _ hscale
  · left
    have hpow : 2 ^ scale P = 2 ^ (scale P - maxPlaces) * unitsOfOne := by
      rw [unitsOfOne, ← Nat.pow_add, Nat.sub_add_cancel hge]
    have hunits : units P * 10 ^ k =
        mantissa P * 2 ^ (scale P - maxPlaces) * 10 ^ k * unitsOfOne := by
      rw [units, hpow, ← Nat.mul_assoc, Nat.mul_right_comm]
    rw [inPlaces, hunits, roundQuotient_mul unitsOfOne_pos]

/-- A magnitude in places is not much larger than the magnitude. -/
theorem inPlaces_mul_lt {k P : Nat} (h : units P < 2 ^ 53 * unitsOfOne) :
    inPlaces k P * unitsOfOne < 2 ^ (54 + maxPlaces) * 10 ^ k := by
  have hk : 0 < 10 ^ k := Nat.pow_pos (by decide)
  have hround : inPlaces k P * unitsOfOne ≤ units P * 10 ^ k + unitsOfOne := by
    obtain ⟨hnear, _⟩ := roundQuotient_spec (units P * 10 ^ k) unitsOfOne_pos
    unfold inPlaces
    unfold Nat.dist at hnear
    omega
  calc inPlaces k P * unitsOfOne ≤ units P * 10 ^ k + unitsOfOne := hround
    _ ≤ units P * 10 ^ k + unitsOfOne * 10 ^ k :=
        Nat.add_le_add_left (Nat.le_mul_of_pos_right _ hk) _
    _ = (units P + unitsOfOne) * 10 ^ k := (Nat.add_mul _ _ _).symm
    _ < (2 ^ 54 * unitsOfOne) * 10 ^ k := Nat.mul_lt_mul_of_pos_right (by omega) hk
    _ = 2 ^ (54 + maxPlaces) * 10 ^ k := by rw [pow_mul_unitsOfOne]

/-- What is read of a magnitude in places is finite and has the same magnitude in those places. Any
zeros may follow the places. -/
theorem inPlaces_back {P : Nat} (k zeros : Nat) (hP : P < infinityPattern) :
    (Decimal.mk (inPlaces k P * 10 ^ zeros) (0 - ((k + zeros : Nat) : Int))).pattern <
        infinityPattern ∧
      inPlaces k (Decimal.mk (inPlaces k P * 10 ^ zeros) (0 - ((k + zeros : Nat) : Int))).pattern =
        inPlaces k P := by
  have hzeros : 0 < 10 ^ zeros := Nat.pow_pos (by decide)
  have hnum : inPlaces k P * 10 ^ zeros * unitsOfOne = inPlaces k P * unitsOfOne * 10 ^ zeros :=
    Nat.mul_right_comm _ _ _
  have hden : ∀ u : Nat, u * 10 ^ (k + zeros) = u * 10 ^ k * 10 ^ zeros := fun u => by
    rw [Nat.pow_add, Nat.mul_assoc]
  have hfin : (Decimal.mk (inPlaces k P * 10 ^ zeros) (0 - ((k + zeros : Nat) : Int))).pattern <
      infinityPattern := by
    refine Decimal.pattern_lt (e := 54 + maxPlaces) hP (by decide) ?_
    rw [hnum, hden, hden]
    rcases inPlaces_exact_or k P with hexact | hsmall
    · exact .inl (by rw [hexact])
    · exact .inr (Nat.mul_lt_mul_of_pos_right (inPlaces_mul_lt hsmall) hzeros)
  refine ⟨hfin, ?_⟩
  have hback := Decimal.pattern_nearest hfin P
  rw [hnum, hden, hden, Nat.dist_mul_right, Nat.dist_mul_right] at hback
  have hback := Nat.le_of_mul_le_mul_right hback hzeros
  rw [Nat.dist_comm, Nat.dist_comm (units P * 10 ^ k)] at hback
  exact roundQuotient_eq_of_nearer unitsOfOne_pos hback

/-! ### Digits with a point -/

/-- Digits before a point and digits behind it, with no point where none are behind it. -/
def pointed (whole fraction : List Char) : List Char :=
  if fraction = [] then whole else whole ++ '.' :: fraction

/-- The digits write a coefficient with a number of places. -/
structure Writes (whole fraction : List Char) (c n : Nat) : Prop where
  whole_ne_nil : whole ≠ []
  isDigit : ∀ d ∈ whole ++ fraction, d.isDigit
  coefficient_eq : Nat.ofDigitChars 10 (whole ++ fraction) 0 = c
  length_fraction : fraction.length = n

theorem exists_positional (c n : Nat) :
    ∃ whole fraction, Writes whole fraction c n ∧ positional c n = pointed whole fraction := by
  generalize hdigits : (Nat.toDigits 10 c).leftpad (n + 1) '0' = digits
  have hlength : n < digits.length := by
    rw [← hdigits, List.length_leftpad]
    omega
  have hfraction : (digits.drop (digits.length - n)).length = n := by
    rw [List.length_drop]
    omega
  refine ⟨digits.take (digits.length - n), digits.drop (digits.length - n),
    ⟨?_, ?_, ?_, hfraction⟩, ?_⟩
  · intro h
    have := congrArg List.length h
    rw [List.length_take, List.length_nil] at this
    omega
  · rw [List.take_append_drop, ← hdigits]
    intro d hd
    rcases List.mem_append.1 hd with hd | hd
    · rw [List.eq_of_mem_replicate hd]
      rfl
    · exact Nat.isDigit_of_mem_toDigits (by decide) (by decide) hd
  · rw [List.take_append_drop, ← hdigits, List.leftpad, Nat.ofDigitChars_append,
      Nat.ofDigitChars_replicate_zero, Nat.mul_zero,
      Nat.ofDigitChars_toDigits (by decide) (by decide)]
  · unfold positional pointed
    dsimp only
    rw [hdigits]
    refine if_congr ?_ rfl rfl
    rw [← List.length_eq_zero_iff, hfraction]

namespace Writes

variable {whole fraction : List Char}

/-- Zeros behind the digits are further places. -/
theorem append_zeros (h : Writes whole fraction c n) (zeros : Nat) :
    Writes whole (fraction ++ List.replicate zeros '0') (c * 10 ^ zeros) (n + zeros) where
  whole_ne_nil := h.whole_ne_nil
  isDigit := by
    intro d hd
    rw [← List.append_assoc] at hd
    rcases List.mem_append.1 hd with hd | hd
    · exact h.isDigit d hd
    · rw [List.eq_of_mem_replicate hd]
      rfl
  coefficient_eq := by
    rw [← List.append_assoc, Nat.ofDigitChars_append, h.coefficient_eq,
      Nat.ofDigitChars_replicate_zero, Nat.mul_comm]
  length_fraction := by
    rw [List.length_append, List.length_replicate, h.length_fraction]

theorem isDigit_whole (h : Writes whole fraction c n) : ∀ d ∈ whole, d.isDigit :=
  fun d hd => h.isDigit d (List.mem_append_left _ hd)

theorem isDigit_fraction (h : Writes whole fraction c n) : ∀ d ∈ fraction, d.isDigit :=
  fun d hd => h.isDigit d (List.mem_append_right _ hd)

theorem exists_cons (h : Writes whole fraction c n) :
    ∃ d rest, d.isDigit ∧ pointed whole fraction = d :: rest := by
  obtain ⟨d, others, hwhole⟩ := List.exists_cons_of_ne_nil h.whole_ne_nil
  have hd := h.isDigit_whole d (by simp [hwhole])
  unfold pointed
  split
  · exact ⟨d, others, hd, hwhole⟩
  · exact ⟨d, _, hd, by rw [hwhole, List.cons_append]⟩

theorem mem_pointed (h : Writes whole fraction c n) {d : Char} (hd : d ∈ pointed whole fraction) :
    d.isDigit ∨ d = '.' := by
  unfold pointed at hd
  split at hd
  · exact .inl (h.isDigit_whole d hd)
  · rcases List.mem_append.1 hd with hd | hd
    · exact .inl (h.isDigit_whole d hd)
    · rcases List.mem_cons.1 hd with hd | hd
      · exact .inr hd
      · exact .inl (h.isDigit_fraction d hd)

theorem readDecimal?_pointed (h : Writes whole fraction c n) :
    readDecimal? (pointed whole fraction) = some ⟨c, 0 - (n : Int)⟩ := by
  have hspan : ∀ digits rest : List Char, (∀ d ∈ digits, d.isDigit) →
      (∀ d ∈ rest.head?, ¬ d.isDigit) → (digits ++ rest).span Char.isDigit = (digits, rest) := by
    intro digits rest hdigits hrest
    rw [List.span_eq_takeWhile_dropWhile, List.takeWhile_append_of_pos hdigits,
      List.dropWhile_append_of_pos hdigits]
    cases rest with
    | nil => simp
    | cons d rest =>
        have := hrest d rfl
        simp [this]
  have hread : ∀ rest, splitFraction rest = (fraction, []) →
      (∀ d ∈ rest.head?, ¬ d.isDigit) → readDecimal? (whole ++ rest) = some ⟨c, 0 - (n : Int)⟩ := by
    intro rest hsplit hrest
    unfold readDecimal?
    rw [hspan whole rest h.isDigit_whole hrest]
    dsimp only
    rw [hsplit]
    dsimp only
    rw [if_neg fun hnil => h.whole_ne_nil hnil.1, readExponent?, Option.map_some, h.coefficient_eq,
      h.length_fraction]
  unfold pointed
  split
  · next hnil =>
    have := hread [] (by rw [hnil]; rfl) (by simp)
    rwa [List.append_nil] at this
  · refine hread ('.' :: fraction) ?_ (by simp)
    have := hspan fraction [] h.isDigit_fraction (by simp)
    rwa [List.append_nil] at this

end Writes

/-! ### The text of a magnitude -/

/-- The digits of a magnitude in fixed places, as one number. -/
def fixedCoefficient (n P : Nat) : Nat :=
  inPlaces (min n maxPlaces) P * 10 ^ (n - min n maxPlaces)

theorem fixedMagnitude_eq (n P : Nat) : fixedMagnitude n P =
    positional (inPlaces (min n maxPlaces) P) (min n maxPlaces) ++
      List.replicate (n - min n maxPlaces) '0' := by
  rw [inPlaces, unitsOfOne_eq]
  rfl

theorem exists_fixedMagnitude (n P : Nat) : ∃ whole fraction,
    Writes whole fraction (fixedCoefficient n P) n ∧
      fixedMagnitude n P = pointed whole fraction := by
  obtain ⟨whole, fraction, hwrites, htext⟩ :=
    exists_positional (inPlaces (min n maxPlaces) P) (min n maxPlaces)
  have hzeros := hwrites.append_zeros (n - min n maxPlaces)
  rw [Nat.add_sub_cancel' (Nat.min_le_left n maxPlaces)] at hzeros
  refine ⟨_, _, hzeros, ?_⟩
  rw [fixedMagnitude_eq, htext]
  unfold pointed
  by_cases hnil : fraction = []
  -- Without places there are no zeros to follow them.
  · have hn : n - min n maxPlaces = 0 := by
      have hlength := hwrites.length_fraction
      rw [hnil, List.length_nil] at hlength
      unfold maxPlaces at hlength ⊢
      omega
    simp [hn, hnil]
  · simp [hnil]

/-- The double that is read of a magnitude's text has the same text. -/
theorem fixedMagnitude_back {P : Nat} (n : Nat) (hP : P < infinityPattern) :
    (Decimal.mk (fixedCoefficient n P) (0 - (n : Int))).pattern < infinityPattern ∧
      fixedMagnitude n (Decimal.mk (fixedCoefficient n P) (0 - (n : Int))).pattern =
        fixedMagnitude n P := by
  have hback := inPlaces_back (min n maxPlaces) (n - min n maxPlaces) hP
  rw [Nat.add_sub_cancel' (Nat.min_le_left n maxPlaces)] at hback
  refine ⟨hback.1, ?_⟩
  rw [fixedMagnitude_eq, fixedMagnitude_eq, fixedCoefficient, hback.2]

/-! ### Signs and words -/

theorem toLower_of_isDigit {d : Char} (h : d.isDigit) : d.toLower = d := by
  refine dif_neg ?_
  rintro ⟨hle, _⟩
  rw [ge_iff_le, UInt32.le_iff_toNat_le] at hle
  exact absurd (Nat.le_trans hle (Text.code_of_isDigit h).2) (by decide)

theorem splitSign_sign_append {d : Char} (hd : d.isDigit) (negative : Bool) (rest : List Char) :
    splitSign (sign negative ++ d :: rest) = (negative, d :: rest) := by
  cases negative with
  | true => rfl
  | false =>
      show splitSign (d :: rest) = _
      unfold splitSign
      split
      · next h => cases h; exact absurd hd (by decide)
      · next h => cases h; exact absurd hd (by decide)
      · rfl

theorem readUnsigned?_of_isDigit {d : Char} (hd : d.isDigit) (negative : Bool) (rest : List Char) :
    readUnsigned? negative (d :: rest) =
      (readDecimal? (d :: rest)).map fun decimal => ofPattern negative decimal.pattern := by
  have hne : ∀ (word : List Char) (c : Char), ¬ c.isDigit →
      (d :: rest).map Char.toLower ≠ c :: word := by
    intro word c hc h
    rw [List.map_cons, toLower_of_isDigit hd, List.cons.injEq] at h
    exact hc (h.1 ▸ hd)
  unfold readUnsigned?
  dsimp only
  rw [if_neg (not_or.2 ⟨hne _ _ (by decide), hne _ _ (by decide)⟩), if_neg (hne _ _ (by decide))]

/-- Digits with a point, and a sign before them, read as the double of their decimal. -/
theorem Writes.read?_sign_append {whole fraction : List Char} (h : Writes whole fraction c n)
    (negative : Bool) : read? (sign negative ++ pointed whole fraction) =
      some (ofPattern negative (Decimal.mk c (0 - (n : Int))).pattern) := by
  obtain ⟨d, rest, hd, hcons⟩ := h.exists_cons
  rw [hcons, read?, splitSign_sign_append hd]
  dsimp only
  rw [readUnsigned?_of_isDigit hd, ← hcons, h.readDecimal?_pointed, Option.map_some]

theorem lt_of_kind {x : Float} {negative : Bool} {P : Nat} (h : kind x = .finite negative P) :
    P < infinityPattern := by
  unfold kind at h
  dsimp only at h
  split at h
  · next hlt =>
    cases h
    exact hlt
  · split at h <;> cases h

/-! ### The text of a number -/

/-- The text of a number reads as a number with the same text. -/
theorem read?_fixed (n : Nat) (x : Float) :
    ∃ y, read? (fixed n x) = some y ∧ fixed n y = fixed n x := by
  cases hx : kind x with
  | nan =>
      refine ⟨nan, ?_, ?_⟩
      · rw [fixed, withMagnitude, hx]
        rfl
      · unfold fixed withMagnitude
        rw [kind_nan, hx]
  | infinite negative =>
      refine ⟨ofPattern negative infinityPattern, ?_, ?_⟩
      · rw [fixed, withMagnitude, hx]
        cases negative <;> rfl
      · unfold fixed withMagnitude
        rw [kind_infinite, hx]
  | finite negative P =>
      obtain ⟨whole, fraction, hwrites, htext⟩ := exists_fixedMagnitude n P
      obtain ⟨hfinite, hback⟩ := fixedMagnitude_back n (lt_of_kind hx)
      have hfixed : fixed n x = sign negative ++ fixedMagnitude n P := by
        rw [fixed, withMagnitude, hx]
      refine ⟨ofPattern negative (Decimal.mk (fixedCoefficient n P) (0 - (n : Int))).pattern,
        ?_, ?_⟩
      · rw [hfixed, htext, hwrites.read?_sign_append]
      · rw [hfixed, ← hback, fixed, withMagnitude, kind_ofPattern negative hfinite]

/-- The characters that numbers are written with. -/
theorem mem_fixed {n : Nat} {x : Float} {d : Char} (h : d ∈ fixed n x) :
    d.isDigit ∨ d ∈ ['-', '.', 'N', 'a', 'i', 'n', 'f'] := by
  have hsign : ∀ negative, d ∈ sign negative → d = '-' := by
    intro negative hd
    cases negative with
    | true => exact List.mem_singleton.1 hd
    | false => cases hd
  unfold fixed withMagnitude at h
  split at h
  · right
    simp only [List.mem_cons, List.not_mem_nil, or_false] at h ⊢
    grind
  · right
    rcases List.mem_append.1 h with h | h
    · simp [hsign _ h]
    · simp only [List.mem_cons, List.not_mem_nil, or_false] at h ⊢
      grind
  · next negative P _ =>
    rcases List.mem_append.1 h with h | h
    · right
      simp [hsign _ h]
    · obtain ⟨whole, fraction, hwrites, htext⟩ := exists_fixedMagnitude n P
      rw [htext] at h
      rcases hwrites.mem_pointed h with h | h
      · exact .inl h
      · right
        simp [h]

end PipeSheet.Number
