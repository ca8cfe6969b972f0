import PipeSheet.Number.Double
/-!
# PipeSheet.Proofs.Number.Bits

**A double is its bits, except that all NaNs are one.**

Taking bits apart into sign, exponent and mantissa and putting them together again gives the same
bits, whether the number is normal, subnormal, zero or infinite. So a double is found again from its
bits, and bits from their double unless they are those of a NaN.
-/

namespace PipeSheet.Number

open Float.Model Float.Model.UnpackedFloat

/-! ### The three parts of a double -/

theorem toBitVec_ofBitVec : ∀ b : BitVec 1, (Sign.ofBitVec b).toBitVec = b := by decide

theorem packComponents_parts (b : BitVec 64) :
    packComponents .binary64 (.ofBitVec (@unpackSign .binary64 b)) (@unpackExponent .binary64 b)
      (@unpackMantissa .binary64 b) = b := by
  refine BitVec.eq_of_getLsbD_eq fun i hi => ?_
  have hi' : i < 64 := hi
  rw [packComponents, toBitVec_ofBitVec]
  delta unpackSign unpackExponent unpackMantissa
  simp only [BitVec.getLsbD_append, BitVec.getLsbD_cast, BitVec.getLsbD_extractLsb]
  -- The mantissa has the lowest 52 bits, the exponent the next 11, and the sign the last one.
  split
  · have hwidth : i < 52 - 1 - 0 + 1 := by omega
    simp [hwidth]
  · split
    · have hwidth : i - 52 < 52 + 11 - 1 - 52 + 1 := by omega
      have hindex : 52 + (i - 52) = i := by omega
      simp [hwidth, hindex]
    · have hwidth : i - 52 - 11 < 52 + 11 - (52 + 11) + 1 := by omega
      have hindex : 52 + 11 + (i - 52 - 11) = i := by omega
      simp [hwidth, hindex]

theorem pack_subnormal (sign : Sign) (m : BitVec 52) (hpos : 0 < m.toNat) :
    UnpackedFloat.pack .binary64 (.finite sign m.toNat (-1074) hpos) =
      packComponents .binary64 sign 0#11 m := by
  have hlog : m.toNat.log2 < 52 := (Nat.log2_lt (by omega)).2 m.isLt
  have hbits : m.toNat.log2 + 1 ≠ Format.binary64.mantissaBits := by
    show m.toNat.log2 + 1 ≠ 53
    omega
  unfold UnpackedFloat.pack
  dsimp only
  rw [if_neg (by decide), if_neg hbits, BitVec.ofNat_toNat, BitVec.setWidth_eq]

theorem toNat_implicit_append (m : BitVec 52) : (1#1 ++ m).toNat = 2 ^ 52 + m.toNat := by
  rw [BitVec.toNat_append, ← Nat.shiftLeft_add_eq_or_of_lt m.isLt]
  rfl

theorem pack_normal (sign : Sign) (e : BitVec 11) (m : BitVec 52) (he : e ≠ -1#11)
    (hpos : 0 < (1#1 ++ m).toNat) :
    UnpackedFloat.pack .binary64 (.finite sign (1#1 ++ m).toNat (e.toNat - 1075) hpos) =
      packComponents .binary64 sign e m := by
  have hm := m.isLt
  have hmax : e.toNat ≠ 2047 := fun h => he (BitVec.eq_of_toNat_eq h)
  -- Taking apart subtracts what putting together adds.
  have hexponent : ((e.toNat : Int) - 1075 + Format.binary64.exponentBias +
      Format.binary64.mantissaBitsWithoutImplicit).toNat = e.toNat := by
    show ((e.toNat : Int) - 1075 + (1023 : Nat) + (52 : Nat)).toNat = e.toNat
    omega
  -- The implicit bit is the highest one, and it is not stored.
  have hlog : (1#1 ++ m).toNat.log2 = 52 := by
    rw [toNat_implicit_append]
    exact (Nat.log2_eq_iff (by omega)).2 ⟨by omega, by omega⟩
  have hbits : (1#1 ++ m).toNat.log2 + 1 = Format.binary64.mantissaBits := by
    rw [hlog]
    rfl
  have hbelow : ¬ 2 ^ 11 ≤ e.toNat + 1 := by
    have he := e.isLt
    omega
  unfold UnpackedFloat.pack
  dsimp only
  rw [hexponent, if_neg hbelow, if_pos hbits]
  congr 1
  · rw [BitVec.ofNat_toNat, BitVec.setWidth_eq]
  · refine BitVec.eq_of_toNat_eq ?_
    rw [toNat_implicit_append, BitVec.toNat_ofNat]
    show (2 ^ 52 + m.toNat) % 2 ^ 52 = m.toNat
    omega

/-- The bits of a NaN: the largest exponent, and a mantissa other than that of infinity. -/
def IsNaN (b : BitVec 64) : Prop :=
  @unpackExponent .binary64 b = -1#11 ∧ @unpackMantissa .binary64 b ≠ 0#52

theorem unpack_of_isNaN {b : BitVec 64} (h : IsNaN b) :
    UnpackedFloat.unpack .binary64 b = .notANumber := by
  unfold UnpackedFloat.unpack
  dsimp only
  rw [if_pos h.1, if_neg h.2]

/-- Bits that are not those of a NaN are those of the number they stand for. -/
theorem pack_unpack {b : BitVec 64} (h : ¬ IsNaN b) :
    UnpackedFloat.pack .binary64 (UnpackedFloat.unpack .binary64 b) = b := by
  have hparts := packComponents_parts b
  unfold UnpackedFloat.unpack
  dsimp only
  by_cases hmax : @unpackExponent .binary64 b = -1#11
  · by_cases hzero : @unpackMantissa .binary64 b = 0#52
    · rw [if_pos hmax, if_pos hzero]
      rw [hmax, hzero] at hparts
      exact hparts
    · exact absurd ⟨hmax, hzero⟩ h
  · rw [if_neg hmax]
    by_cases hmin : @unpackExponent .binary64 b = 0#11
    · rw [if_pos hmin]
      by_cases hzero : @unpackMantissa .binary64 b = 0#52
      · rw [dif_pos hzero]
        rw [hmin, hzero] at hparts
        exact hparts
      · have hpack := pack_subnormal (.ofBitVec (@unpackSign .binary64 b)) _
          ((BitVec.toNat_pos _).2 ((BitVec.pos_iff_ne_zero _).2 hzero))
        rw [← hmin, hparts] at hpack
        rw [dif_neg hzero, hmin]
        exact hpack
    · rw [if_neg hmin]
      exact (pack_normal _ _ _ hmax _).trans hparts

/-! ### Doubles and their bits -/

/-- All bits of a NaN denote the same. -/
theorem ofBits_of_isNaN {bits : UInt64} (h : IsNaN bits.toBitVec) : Float.ofBits bits = nan := by
  have hmodel : Float.Model.ofBits bits = Float.Model.pack .notANumber :=
    congrArg Float.Model.pack (unpack_of_isNaN h)
  rw [Float.ofBits, hmodel]
  decide +kernel

/-- The bits of a number are the only ones that denote it. -/
theorem toBits_ofBits {bits : UInt64} (h : Float.ofBits bits ≠ nan) :
    (Float.ofBits bits).toBits = bits := by
  by_cases hnan : IsNaN bits.toBitVec
  · exact absurd (ofBits_of_isNaN hnan) h
  · exact congrArg UInt64.ofBitVec (pack_unpack hnan)

theorem ofBits_toBits (x : Float) : Float.ofBits x.toBits = x := by
  obtain ⟨⟨bits, hvalid⟩⟩ := x
  have hpack : UnpackedFloat.pack .binary64 (UnpackedFloat.unpack .binary64 bits.toBitVec) =
      bits.toBitVec := by
    by_cases hnan : IsNaN bits.toBitVec
    · rw [unpack_of_isNaN hnan]
      exact (hvalid.eq_packedNaN hnan.1 hnan.2).symm
    · exact pack_unpack hnan
  have hbits : Float.Model.ofBits bits = ⟨bits, hvalid⟩ :=
    (Float.Model.mk.injEq ..).mpr (congrArg UInt64.ofBitVec hpack)
  exact congrArg Float.ofModel hbits

end PipeSheet.Number
