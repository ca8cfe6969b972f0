import PipeSheet.Proofs.Number.ShortText
/-!
# PipeSheet.Proofs.Number.WholeText

**A number that is written without a minus sign and without a point is whole, and its shortest text
is a word of digits.**

Such a text may still have an exponent, and it may be too large for a double; so the number is a
nonnegative whole number, an infinity, or no number at all. The exact decimal of a whole number has
only zeros behind its point, hence the grid on which they are all left out has a neighbour that
reads back, and the search ends there at the latest.

* `Whole`: doubles that are no number, or nonnegative and without a fraction;
* `whole_of_read?`: what is read of a text without a minus sign and without a point;
* `Whole.isAlphanum_plain`: the characters of the shortest text.
-/

namespace PipeSheet.Number

variable {P N : Nat} {x : Float} {text : List Char}

/-- A double that is no number, or is not negative and has no fraction. -/
inductive Whole : Float → Prop
  | nan : Whole nan
  | infinite : Whole (ofPattern false infinityPattern)
  | finite {P N : Nat} : P < infinityPattern → units P = N * unitsOfOne → Whole (ofPattern false P)

/-! ### Doubles of whole numbers -/

/-- The double nearest a whole number is whole. -/
theorem exists_units_nearestPattern {n : Nat}
    (h : nearestPattern (n * unitsOfOne) 1 < infinityPattern) :
    ∃ N, units (nearestPattern (n * unitsOfOne) 1) = N * unitsOfOne := by
  rw [units_nearestPattern Nat.one_pos h]
  generalize hscale : quotientScale (n * unitsOfOne) 1 = scale
  rcases Nat.le_total maxPlaces scale with hle | hle
  -- The unit of the double is a whole number.
  · have hpow := pow_mul_unitsOfOne (scale - maxPlaces)
    rw [Nat.sub_add_cancel hle] at hpow
    rw [← hpow, ← Nat.mul_assoc]
    exact ⟨_, rfl⟩
  -- The number is a multiple of the unit of the double, so it is met exactly.
  · have hunit : n * unitsOfOne = n * 2 ^ (maxPlaces - scale) * (1 * 2 ^ scale) := by
      rw [Nat.one_mul, Nat.mul_assoc, ← Nat.pow_add, Nat.sub_add_cancel hle, unitsOfOne]
    refine ⟨n, ?_⟩
    rw [quotientMantissa, hscale, hunit, roundQuotient_mul (den_mul_pos Nat.one_pos scale),
      Nat.one_mul]

theorem whole_nearestPattern (n : Nat) :
    Whole (ofPattern false (nearestPattern (n * unitsOfOne) 1)) := by
  have hle : nearestPattern (n * unitsOfOne) 1 ≤ infinityPattern := Nat.min_le_right _ _
  rcases Nat.lt_or_eq_of_le hle with hlt | heq
  · obtain ⟨N, hN⟩ := exists_units_nearestPattern hlt
    exact .finite hlt hN
  · rw [heq]
    exact .infinite

/-! ### Reading without a minus sign and without a point -/

theorem readExponent?_nonneg {exponent : Int} (hminus : '-' ∉ text)
    (h : readExponent? text = some exponent) : 0 ≤ exponent := by
  have hcast : ∀ {digits? : Option Nat} {n : Int}, (do let k ← digits?; pure (k : Int)) = some n →
      0 ≤ n := by
    intro digits? n hn
    cases digits? with
    | none => cases hn
    | some k =>
        cases hn
        exact Int.natCast_nonneg k
  unfold readExponent? at h
  split at h
  · cases h
    exact Int.le_refl 0
  · next c rest =>
    split at h
    · split at h
      · next digits => exact absurd (by simp) hminus
      · obtain ⟨n, hn, rfl⟩ := Option.map_eq_some_iff.1 h
        exact hcast hn
      · obtain ⟨n, hn, rfl⟩ := Option.map_eq_some_iff.1 h
        exact hcast hn
    · cases h

theorem splitFraction_of_not_mem (hpoint : '.' ∉ text) : splitFraction text = ([], text) := by
  unfold splitFraction
  split
  · exact absurd List.mem_cons_self hpoint
  · rfl

theorem readDecimal?_exponent_nonneg {d : Decimal} (hminus : '-' ∉ text) (hpoint : '.' ∉ text)
    (h : readDecimal? text = some d) : 0 ≤ d.exponent := by
  have hrest : ∀ c ∈ (text.span Char.isDigit).2, c ∈ text := by
    rw [List.span_eq_takeWhile_dropWhile]
    exact fun c hc => (List.dropWhile_sublist _).subset hc
  unfold readDecimal? at h
  dsimp only at h
  rw [splitFraction_of_not_mem fun hmem => hpoint (hrest _ hmem)] at h
  split at h
  · cases h
  · obtain ⟨exponent, hexponent, rfl⟩ := Option.map_eq_some_iff.1 h
    have hnonneg := readExponent?_nonneg (fun hmem => hminus (hrest _ hmem)) hexponent
    simpa using hnonneg

/-- What is read of a text without a minus sign and without a point is whole. -/
theorem whole_of_read? (hminus : '-' ∉ text) (hpoint : '.' ∉ text) (h : read? text = some x) :
    Whole x := by
  obtain ⟨rest, hsplit, hrest⟩ : ∃ rest, splitSign text = (false, rest) ∧ ∀ c ∈ rest, c ∈ text := by
    unfold splitSign
    split
    · exact absurd List.mem_cons_self hminus
    · next rest => exact ⟨rest, rfl, fun c hc => List.mem_cons_of_mem _ hc⟩
    · exact ⟨_, rfl, fun c hc => hc⟩
  unfold read? at h
  rw [hsplit] at h
  dsimp only at h
  unfold readUnsigned? at h
  dsimp only at h
  split at h
  · cases h
    exact .infinite
  · split at h
    · cases h
      exact .nan
    · obtain ⟨⟨c, exponent⟩, hdecimal, rfl⟩ := Option.map_eq_some_iff.1 h
      obtain ⟨e, rfl⟩ := Int.eq_ofNat_of_zero_le (readDecimal?_exponent_nonneg
        (fun hmem => hminus (hrest _ hmem)) (fun hmem => hpoint (hrest _ hmem)) hdecimal)
      rw [Decimal.pattern_ofNat]
      exact whole_nearestPattern _

/-! ### The shortest decimal of a whole number -/

theorem exponent_le_stripZeros (limit : Nat) (d : Decimal) :
    d.exponent ≤ (stripZeros limit d).exponent := by
  induction limit generalizing d with
  | zero => exact Int.le_refl _
  | succ limit ih =>
      rw [stripZeros]
      split
      · exact Int.le_trans (Int.le_add_of_nonneg_right (by decide)) (ih _)
      · exact Int.le_refl _

theorem exponent_of_neighbour? {d e : Decimal} {drop : Nat} (h : neighbour? P d drop = some e) :
    e.exponent = d.exponent + drop := by
  unfold neighbour? at h
  dsimp only at h
  split at h
  · obtain rfl := Option.some.inj h
    split <;> rfl
  · obtain rfl := Option.some.inj h
    rfl
  · obtain rfl := Option.some.inj h
    rfl
  · cases h

/-- The places of a whole number are zeros. -/
theorem coefficient_exactDecimal (hN : units P = N * unitsOfOne) :
    (exactDecimal P).coefficient = N * 10 ^ exactPlaces P := by
  refine Nat.eq_of_mul_eq_mul_right unitsOfOne_pos ?_
  rw [coefficient_exactDecimal_mul, hN, Nat.mul_right_comm]

/-- Without its places a whole number reads back. -/
theorem neighbour?_exactPlaces_ne_none (hP : P < infinityPattern) (hN : units P = N * unitsOfOne) :
    neighbour? P (exactDecimal P) (exactPlaces P) ≠ none := by
  have hlower : ((exactDecimal P).neighbours (exactPlaces P)).1.pattern = P := by
    have hexponent : ((exactDecimal P).neighbours (exactPlaces P)).1.exponent + (0 : Nat) =
        (0 : Nat) := by
      show (exactDecimal P).exponent + exactPlaces P + (0 : Nat) = (0 : Nat)
      rw [exponent_exactDecimal]
      omega
    have hcoefficient : ((exactDecimal P).neighbours (exactPlaces P)).1.coefficient = N := by
      show (exactDecimal P).coefficient / 10 ^ exactPlaces P = N
      rw [coefficient_exactDecimal hN, Nat.mul_div_cancel _ (Nat.pow_pos (by decide))]
    rw [Decimal.pattern_eq hexponent, hcoefficient, Nat.pow_zero, Nat.mul_one, ← hN,
      ← Nat.mul_one (units P), nearestPattern_units Nat.one_pos hP]
  unfold neighbour?
  dsimp only
  rw [decide_eq_true hlower]
  split <;> simp_all

/-- A search that begins with all places left out does not end with any. -/
theorem exponent_searchGrids_nonneg (hP : P < infinityPattern) (hN : units P = N * unitsOfOne)
    {drop : Nat} (hdrop : exactPlaces P ≤ drop) :
    0 ≤ (searchGrids P (exactDecimal P) drop).exponent := by
  induction drop with
  | zero =>
      rw [searchGrids, exponent_exactDecimal]
      omega
  | succ drop ih =>
      rw [searchGrids]
      split
      · next hfound =>
        rw [exponent_of_neighbour? hfound, exponent_exactDecimal]
        omega
      · next hnone =>
        refine ih (Nat.le_of_lt_succ (Nat.lt_of_le_of_ne hdrop fun heq => ?_))
        exact neighbour?_exactPlaces_ne_none hP hN (heq ▸ hnone)

/-- The shortest decimal of a whole number has no places. -/
theorem exponent_shortest_nonneg (hP : P < infinityPattern) (hN : units P = N * unitsOfOne) :
    0 ≤ (shortest P).exponent := by
  unfold shortest
  split
  · exact Int.le_refl 0
  · next hne =>
    have hpos : 0 < N := by
      refine Nat.pos_iff_ne_zero.2 fun hzero => hne ?_
      rw [← @nearestPattern_units 1 P Nat.one_pos hP, hN, hzero, Nat.zero_mul, Nat.zero_mul,
        nearestPattern_eq_zero (Nat.zero_le _)]
    have hdigits : exactPlaces P < (Nat.toDigits 10 (exactDecimal P).coefficient).length := by
      refine Nat.lt_of_not_le fun hle => ?_
      have hplaces := Nat.lt_of_lt_of_le Nat.length_toDigits_pos hle
      have hlt := (Nat.length_toDigits_le_iff (by decide) hplaces).1 hle
      rw [coefficient_exactDecimal hN] at hlt
      exact absurd (Nat.le_mul_of_pos_left _ hpos) (Nat.not_le_of_lt hlt)
    exact Int.le_trans (exponent_searchGrids_nonneg hP hN (Nat.le_sub_one_of_lt hdigits))
      (exponent_le_stripZeros _ _)

/-! ### The shortest text of a whole number -/

theorem Decimal.isDigit_plain {d : Decimal} (h : 0 ≤ d.exponent) : ∀ c ∈ d.plain, c.isDigit := by
  obtain ⟨c, e | n⟩ := d
  · obtain ⟨whole, fraction, hwrites, htext⟩ := exists_positional (c * 10 ^ e) 0
    have hnil : fraction = [] := List.length_eq_zero_iff.1 hwrites.length_fraction
    have hplain : (Decimal.mk c (.ofNat e)).plain = whole := by
      rw [pointed, if_pos hnil] at htext
      exact htext
    rw [hplain]
    exact hwrites.isDigit_whole
  · exact absurd h (by simp)

/-- The shortest text of a whole number has letters and digits only. -/
theorem Whole.isAlphanum_plain (h : Whole x) : ∀ c ∈ plain x, c.isAlphanum := by
  cases h with
  | nan =>
      unfold plain withMagnitude
      rw [kind_nan]
      exact List.all_eq_true.1 (by decide)
  | infinite =>
      unfold plain withMagnitude
      rw [kind_infinite]
      exact List.all_eq_true.1 (by decide)
  | finite hP hN =>
      unfold plain withMagnitude
      rw [kind_ofPattern false hP]
      intro c hc
      have hdigit := Decimal.isDigit_plain (exponent_shortest_nonneg hP hN) c hc
      rw [Char.isAlphanum, hdigit, Bool.or_true]

theorem plain_ne_nil (x : Float) : plain x ≠ [] := by
  intro h
  have hread := read?_plain x
  rw [h] at hread
  cases hread

end PipeSheet.Number
