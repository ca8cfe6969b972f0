import Mathlib.Data.List.TakeDrop
import PipeSheet.Number.Reader
import PipeSheet.Proofs.Text.Characters
import PipeSheet.Text.Utf8
/-!
# PipeSheet.Proofs.Number.Characters

**A number is written with digits, letters, signs and a point, and with nothing else.**

The reader takes a number apart from left to right: a sign, digits, a point, digits, an exponent. No
part admits another character, and nothing may be left over.

* `Admitted`: the characters of numbers;
* `admitted_of_read?`: a text that reads as a number has no others.
-/

namespace PipeSheet.Number

variable {s : List Char} {c : Char}

/-- The characters that numbers are written with. -/
def Admitted (c : Char) : Prop :=
  c.isAlphanum ∨ c = '+' ∨ c = '-' ∨ c = '.'

theorem admitted_of_isDigit (h : c.isDigit) : Admitted c := by
  rw [Admitted, Char.isAlphanum, h, Bool.or_true]
  exact .inl rfl

theorem replacement_not_admitted : ¬ Admitted Text.Utf8.replacement := by
  intro h
  obtain halphanum | hplus | hminus | hpoint := h
  · exact absurd halphanum (by decide)
  · exact absurd hplus (by decide)
  · exact absurd hminus (by decide)
  · exact absurd hpoint (by decide)

/-- Only a letter becomes a small letter. -/
theorem isAlphanum_of_toLower (h : c.toLower.isLower) : c.isAlphanum := by
  refine Bool.or_eq_true_iff.2 (.inl (Bool.or_eq_true_iff.2 ?_))
  by_cases hupper : c.val ≥ 'A'.val ∧ c.val ≤ 'Z'.val
  · exact .inl (decide_eq_true hupper)
  · have hsame : c.toLower = c := dif_neg hupper
    exact .inr (hsame ▸ h)

/-- The words for numbers consist of letters. -/
theorem admitted_of_map_toLower {word : List Char} (hword : word.all Char.isLower)
    (h : s.map Char.toLower = word) : ∀ c ∈ s, Admitted c := by
  intro c hc
  have hmem : c.toLower ∈ word := h ▸ List.mem_map_of_mem hc
  exact .inl (isAlphanum_of_toLower (List.all_eq_true.1 hword _ hmem))

/-! ### Decimals -/

/-- The digits of an exponent, from whose value something is made. -/
theorem admitted_of_readExponentDigits? {f : Nat → Option Int} {exponent : Int}
    (h : (readExponentDigits? s).bind f = some exponent) : ∀ c ∈ s, Admitted c := by
  obtain ⟨n, hn, _⟩ := Option.bind_eq_some_iff.1 h
  unfold readExponentDigits? at hn
  split at hn
  · next hdigits => exact fun c hc => admitted_of_isDigit (List.all_eq_true.1 hdigits.2 c hc)
  · cases hn

theorem admitted_of_readExponent? {exponent : Int} (h : readExponent? s = some exponent) :
    ∀ c ∈ s, Admitted c := by
  unfold readExponent? at h
  split at h
  · simp
  · next e rest =>
    split at h
    · next he =>
      have hletter : Admitted e := by
        rcases he with rfl | rfl
        · exact .inl (by decide)
        · exact .inl (by decide)
      refine List.forall_mem_cons.2 ⟨hletter, ?_⟩
      split at h
      · next digits =>
        obtain ⟨_, hdigits, _⟩ := Option.map_eq_some_iff.1 h
        exact List.forall_mem_cons.2
          ⟨.inr (.inr (.inl rfl)), admitted_of_readExponentDigits? hdigits⟩
      · next digits =>
        obtain ⟨_, hdigits, _⟩ := Option.map_eq_some_iff.1 h
        exact List.forall_mem_cons.2 ⟨.inr (.inl rfl), admitted_of_readExponentDigits? hdigits⟩
      · obtain ⟨_, hdigits, _⟩ := Option.map_eq_some_iff.1 h
        exact admitted_of_readExponentDigits? hdigits
    · cases h

/-- Digits in front do not matter. -/
theorem admitted_of_dropWhile (h : ∀ c ∈ s.dropWhile Char.isDigit, Admitted c) :
    ∀ c ∈ s, Admitted c := by
  intro c hc
  rw [← List.takeWhile_append_dropWhile (p := Char.isDigit) (l := s), List.mem_append] at hc
  rcases hc with hc | hc
  · exact admitted_of_isDigit (List.all_eq_true.1 List.all_takeWhile c hc)
  · exact h c hc

theorem admitted_of_splitFraction (h : ∀ c ∈ (splitFraction s).2, Admitted c) :
    ∀ c ∈ s, Admitted c := by
  unfold splitFraction at h
  split at h
  · next rest =>
    rw [List.span_eq_takeWhile_dropWhile] at h
    exact List.forall_mem_cons.2 ⟨.inr (.inr (.inr rfl)), admitted_of_dropWhile h⟩
  · exact h

theorem admitted_of_readDecimal? {d : Decimal} (h : readDecimal? s = some d) :
    ∀ c ∈ s, Admitted c := by
  unfold readDecimal? at h
  rw [List.span_eq_takeWhile_dropWhile] at h
  dsimp only at h
  split at h
  · cases h
  · obtain ⟨exponent, hexponent, _⟩ := Option.map_eq_some_iff.1 h
    exact admitted_of_dropWhile (admitted_of_splitFraction (admitted_of_readExponent? hexponent))

/-! ### Numbers -/

theorem admitted_of_readUnsigned? {negative : Bool} {x : Float}
    (h : readUnsigned? negative s = some x) : ∀ c ∈ s, Admitted c := by
  unfold readUnsigned? at h
  dsimp only at h
  split at h
  · next hword =>
    rcases hword with hword | hword
    · exact admitted_of_map_toLower (by decide) hword
    · exact admitted_of_map_toLower (by decide) hword
  · split at h
    · next hword => exact admitted_of_map_toLower (by decide) hword
    · obtain ⟨d, hd, _⟩ := Option.map_eq_some_iff.1 h
      exact admitted_of_readDecimal? hd

/-- A text that reads as a number consists of the characters of numbers. -/
theorem admitted_of_read? {x : Float} (h : read? s = some x) : ∀ c ∈ s, Admitted c := by
  have hrest : ∀ c ∈ (splitSign s).2, Admitted c := admitted_of_readUnsigned? h
  unfold splitSign at hrest
  split at hrest
  · exact List.forall_mem_cons.2 ⟨.inr (.inr (.inl rfl)), hrest⟩
  · exact List.forall_mem_cons.2 ⟨.inr (.inl rfl), hrest⟩
  · exact hrest

end PipeSheet.Number
