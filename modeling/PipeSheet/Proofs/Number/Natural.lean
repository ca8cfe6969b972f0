import PipeSheet.Number.Decimal
import PipeSheet.Proofs.Text.Characters
/-!
# PipeSheet.Proofs.Number.Natural

**Digits write a number, and the number is written with the same digits.**

Zeros in front say nothing, and the digits behind them are those in which the number is written. Of
a number that is not zero, each further digit is one more digit of the text.

* `naturalOf?_eq_some_iff`: the texts of numbers with 64 bits;
* `withoutZeros`: digits without the zeros that say nothing;
* `toDigits_ofDigitChars`: the digits of the number that some digits write.
-/

namespace PipeSheet.Number

variable {digits : List Char} {n : Nat} {d : Char}

theorem naturalOf?_eq_some_iff : naturalOf? digits = some n ↔
    digits ≠ [] ∧ (∀ d ∈ digits, d.isDigit) ∧ n = Nat.ofDigitChars 10 digits 0 ∧ n < 2 ^ 64 := by
  rw [naturalOf?, Option.ite_none_right_eq_some, Option.some_inj, List.all_eq_true]
  constructor
  · rintro ⟨⟨hne, hdigits, hlt⟩, rfl⟩
    exact ⟨hne, hdigits, rfl, hlt⟩
  · rintro ⟨hne, hdigits, rfl, hlt⟩
    exact ⟨⟨hne, hdigits, hlt⟩, rfl⟩

/-- Digits without the zeros in front of the first other digit. The last digit always stays. -/
def withoutZeros : List Char → List Char
  | '0' :: d :: rest => withoutZeros (d :: rest)
  | digits => digits

/-! ### The digits of a number -/

theorem digitChar_of_isDigit (h : d.isDigit) : Nat.digitChar (d.toNat - 48) = d := by
  have hcode := Text.code_of_isDigit h
  refine Char.toNat_inj.1 ?_
  rw [Nat.toNat_digitChar_of_lt_ten (by omega)]
  omega

/-- Digits behind a number that is not zero. -/
theorem toDigits_append (hn : 0 < n) (h : ∀ d ∈ digits, d.isDigit) :
    Nat.toDigits 10 n ++ digits = Nat.toDigits 10 (Nat.ofDigitChars 10 digits n) := by
  induction digits generalizing n with
  | nil => rw [List.append_nil, Nat.ofDigitChars_nil]
  | cons d rest ih =>
      obtain ⟨hd, hrest⟩ := List.forall_mem_cons.1 h
      have hcode := Text.code_of_isDigit hd
      have hlt : d.toNat - 48 < 10 := by omega
      have hfirst : Nat.toDigits 10 n ++ [d] = Nat.toDigits 10 (10 * n + (d.toNat - 48)) := by
        rw [← Nat.toDigits_append_toDigits (by decide) hn hlt, Nat.toDigits_of_lt_base hlt,
          digitChar_of_isDigit hd]
      rw [List.append_cons, hfirst, ih (by omega) hrest, Nat.ofDigitChars_cons]
      rfl

/-- The number that some digits write is written with these digits, but for zeros in front. -/
theorem toDigits_ofDigitChars (hne : digits ≠ []) (h : ∀ d ∈ digits, d.isDigit) :
    Nat.toDigits 10 (Nat.ofDigitChars 10 digits 0) = withoutZeros digits := by
  fun_induction withoutZeros digits with
  | case1 d rest ih =>
      rw [Nat.ofDigitChars_cons]
      exact ih (List.cons_ne_nil _ _) (List.forall_mem_cons.1 h).2
  | case2 digits hzeros =>
      obtain ⟨d, rest, rfl⟩ := List.exists_cons_of_ne_nil hne
      obtain ⟨hd, hrest⟩ := List.forall_mem_cons.1 h
      have hcode := Text.code_of_isDigit hd
      have hfirst : Nat.toDigits 10 (d.toNat - 48) = [d] := by
        rw [Nat.toDigits_of_lt_base (by omega), digitChar_of_isDigit hd]
      have hvalue : Nat.ofDigitChars 10 (d :: rest) 0 =
          Nat.ofDigitChars 10 rest (d.toNat - 48) := by
        rw [Nat.ofDigitChars_cons, Nat.mul_zero, Nat.zero_add]
        rfl
      rw [hvalue]
      cases rest with
      | nil => exact hfirst
      | cons next rest =>
          -- The first of several digits is not zero, so the number has it as its first digit.
          have hpos : d.toNat ≠ 48 := fun hzero =>
            hzeros next rest (congrArg (· :: next :: rest) (Char.toNat_inj.1 hzero))
          rw [← toDigits_append (by omega) hrest, hfirst]
          rfl

theorem toDigits_injective {m : Nat} (h : Nat.toDigits 10 m = Nat.toDigits 10 n) : m = n := by
  rw [← @Nat.ofDigitChars_ten_toDigits m, h, Nat.ofDigitChars_ten_toDigits]

end PipeSheet.Number
