import PipeSheet.Text.Blank
/-!
# PipeSheet.Proofs.Text.Characters

**The codes of digits, letters and blanks.**

A class of characters is a few ranges of codes. What two classes have to do with each other is a
question about these ranges.

* `code_of_isDigit`, `code_of_isUpper`, `code_of_isLower`: the ranges of digits and letters;
* `not_isAlphanum_of_isBlank`: a blank is neither a digit nor a letter.
-/

namespace PipeSheet.Text

variable {c : Char}

theorem code_of_isDigit (h : c.isDigit) : 48 ≤ c.toNat ∧ c.toNat ≤ 57 := by
  obtain ⟨hlow, hhigh⟩ := Bool.and_eq_true_iff.1 h
  exact ⟨UInt32.le_iff_toNat_le.1 (of_decide_eq_true hlow),
    UInt32.le_iff_toNat_le.1 (of_decide_eq_true hhigh)⟩

/-- The codes of capital letters. -/
theorem code_of_isUpper (h : c.isUpper) : 65 ≤ c.toNat ∧ c.toNat ≤ 90 := by
  have hval : c.val ≥ 'A'.val ∧ c.val ≤ 'Z'.val := of_decide_eq_true h
  exact ⟨UInt32.le_iff_toNat_le.1 hval.1, UInt32.le_iff_toNat_le.1 hval.2⟩

/-- The codes of small letters. -/
theorem code_of_isLower (h : c.isLower) : 97 ≤ c.toNat ∧ c.toNat ≤ 122 := by
  obtain ⟨hlow, hhigh⟩ := Bool.and_eq_true_iff.1 h
  exact ⟨UInt32.le_iff_toNat_le.1 (of_decide_eq_true hlow),
    UInt32.le_iff_toNat_le.1 (of_decide_eq_true hhigh)⟩

/-- A blank is neither a digit nor a letter. -/
theorem not_isAlphanum_of_isBlank (h : isBlank c) : c.isAlphanum = false := by
  simp only [isBlank, blankRanges, List.any_cons, List.any_nil, Bool.or_false, Bool.or_eq_true,
    Bool.and_eq_true, decide_eq_true_eq] at h
  refine Bool.eq_false_iff.2 fun halphanum => ?_
  rcases Bool.or_eq_true_iff.1 halphanum with hletter | hdigit
  · rcases Bool.or_eq_true_iff.1 hletter with hupper | hlower
    · have hcode := code_of_isUpper hupper
      omega
    · have hcode := code_of_isLower hlower
      omega
  · have hcode := code_of_isDigit hdigit
    omega

end PipeSheet.Text
