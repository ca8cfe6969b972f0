import PipeSheet.Proofs.Formula.Cutoff
import PipeSheet.Proofs.Text.Characters
/-!
# PipeSheet.Proofs.Formula.Blanks

**What blanks behind a formula do.**

Those that are spaces of formulas do nothing, and the first one that is not belongs nowhere. So
blanks behind a formula do not change what it says, unless the reader gets to such a blank; a word
that ends the sum hides them.

* `spaces_or_exists_append`: the first character that is no space;
* `read_append_blanks`, `read_append_blanks_error`: reading a formula with blanks behind it.
-/

namespace PipeSheet.Formula

open Text (byteLength isBlank)

variable {blanks body skipped rest : List Char} {c : Char}

theorem not_isWordChar_of_isBlank (h : isBlank c) : isWordChar c = false := by
  have hunderscore : c ≠ '_' := by
    rintro rfl
    revert h
    decide
  rw [isWordChar, Text.not_isAlphanum_of_isBlank h, Bool.false_or]
  exact decide_eq_false hunderscore

/-- A blank that is no space of formulas belongs nowhere. -/
theorem not_ordinary_of_isBlank (h : isBlank c) (hspace : c ∉ spaces) : ¬ Ordinary c := by
  intro hordinary
  obtain hc | rfl | hc := hordinary
  · exact hspace hc
  · revert h
    decide
  · simp [not_isWordChar_of_isBlank h] at hc

theorem spaces_or_exists_append (s : List Char) : (∀ c ∈ s, c ∈ spaces) ∨
    ∃ skipped c rest, s = skipped ++ c :: rest ∧ (∀ d ∈ skipped, d ∈ spaces) ∧ c ∉ spaces := by
  obtain ⟨skipped, back, rfl, hskipped, hback⟩ := exists_eq_append_of_class isSpace s
  simp only [isSpace_iff_mem] at hskipped hback
  cases back with
  | nil => exact .inl (by simpa using hskipped)
  | cons c rest => exact .inr ⟨skipped, c, rest, rfl, hskipped, hback c rfl⟩

/-! ### Reading -/

section Read

variable {store : Store} {root : NodeId}

/-- Spaces behind a formula do not matter to whether it reads. -/
theorem exists_read_append_spaces_iff (h : ∀ c ∈ skipped, c ∈ spaces) (body : List Char)
    (store : Store) : (∃ root, (read (body ++ skipped) store).1 = .ok root) ↔
      ∃ root, (read body store).1 = .ok root := by
  rw [exists_read_eq_ok_iff, exists_read_eq_ok_iff, lexemes_append_spaces h]

/-- Spaces behind a formula do not matter to what it says. -/
theorem read_append_spaces (h : ∀ c ∈ skipped, c ∈ spaces)
    (hread : (read body store).1 = .ok root) :
    read (body ++ skipped) store = read body store := by
  obtain ⟨operands, last, hsum⟩ := (exists_read_eq_ok_iff body store).1 ⟨root, hread⟩
  exact read_congr hsum (fun i _ => by rw [lexemes_append_spaces h]) store

/-- Behind spaces, the first blank that is not one is what the reader gets to, or does not. -/
theorem exists_read_append_blank_iff (hskipped : ∀ d ∈ skipped, d ∈ spaces) (hc : isBlank c)
    (hspace : c ∉ spaces) (body rest : List Char) (store : Store) :
    (∃ root, (read (body ++ (skipped ++ c :: rest)) store).1 = .ok root) ↔ EndsByWord body := by
  rw [← List.append_assoc, read_append_foreign_iff (not_ordinary_of_isBlank hc hspace),
    endsByWord_congr (lexemes_append_spaces hskipped body)]

/-- A formula reads with blanks behind it exactly if it reads without them and they are spaces, or
cannot be reached. -/
theorem read_append_blanks_iff (h : ∀ c ∈ blanks, isBlank c) (store : Store) :
    (∃ root, (read (body ++ blanks) store).1 = .ok root) ↔
      (∃ root, (read body store).1 = .ok root) ∧
        ((∀ c ∈ blanks, c ∈ spaces) ∨ EndsByWord body) := by
  rcases spaces_or_exists_append blanks with hspaces | ⟨skipped, c, rest, rfl, hskipped, hspace⟩
  · rw [exists_read_append_spaces_iff hspaces]
    exact (and_iff_left (.inl hspaces)).symm
  · rw [exists_read_append_blank_iff hskipped (h c (by simp)) hspace]
    constructor
    · intro hword
      exact ⟨hword.exists_read store, .inr hword⟩
    · intro ⟨_, hends⟩
      exact hends.resolve_left fun hspaces => hspace (hspaces c (by simp))

/-- Then it says the same. -/
theorem read_append_blanks (h : ∀ c ∈ blanks, isBlank c)
    (hread : (read (body ++ blanks) store).1 = .ok root) :
    read (body ++ blanks) store = read body store := by
  obtain ⟨⟨_, hbody⟩, _⟩ := (read_append_blanks_iff h store).1 ⟨root, hread⟩
  rcases spaces_or_exists_append blanks with hspaces | ⟨skipped, c, rest, rfl, hskipped, hspace⟩
  · exact read_append_spaces hspaces hbody
  · have hc := h c (by simp)
    have hword := (exists_read_append_blank_iff hskipped hc hspace body rest store).1 ⟨root, hread⟩
    rw [← endsByWord_congr (lexemes_append_spaces hskipped body)] at hword
    rw [← List.append_assoc, read_append_foreign (not_ordinary_of_isBlank hc hspace) hword,
      read_append_spaces hskipped hbody]

/-- If it reads, and the blanks can be reached, then the first of them that is no space is the
error. -/
theorem read_append_blanks_error (h : ∀ d ∈ skipped ++ c :: rest, isBlank d)
    (hskipped : ∀ d ∈ skipped, d ∈ spaces) (hspace : c ∉ spaces) (hword : ¬ EndsByWord body)
    (hread : (read body store).1 = .ok root) :
    (read (body ++ (skipped ++ c :: rest)) store).1 = .error (.unrecognized
      ⟨c, .ofRange (byteLength (body ++ skipped)) (byteLength (body ++ skipped ++ [c]))⟩) := by
  rw [← endsByWord_congr (lexemes_append_spaces hskipped body)] at hword
  rw [← List.append_assoc, read_append_foreign_error
      (not_ordinary_of_isBlank (h c (by simp)) hspace) hword,
    read_append_spaces hskipped hread, hread]
  rfl

end Read

end PipeSheet.Formula
