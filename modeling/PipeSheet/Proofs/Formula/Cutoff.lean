import PipeSheet.Proofs.Formula.Language
import PipeSheet.Proofs.Formula.Partition
/-!
# PipeSheet.Proofs.Formula.Cutoff

**A character that belongs nowhere stops the reader, unless a word in front of it ended the sum.**

Such a character is a lexeme by itself and cuts no word, so the lexemes in front of it are those of
the text in front of it. The reader looks at the lexeme behind the last operand and at no other one
behind the sum. If a word stands there, what the text in front says is all that is said. Otherwise
the reader goes on to the character, and stops at it if nothing stopped it before.

* `lexemesFrom_append`, `lexemes_append_foreign`: the lexemes of a text that is not cut inside a
  word;
* `isSum_append_unrecognized_iff`: sums with such a lexeme behind them;
* `EndsByWord`, `FormulaError.cutBy`: formulas that end before it, and the error of the others;
* `read_append_foreign`, `read_append_foreign_error`: reading a text with such a character in it.
-/

namespace PipeSheet.Formula

open Text (byteLength)

variable {front back skipped s t : List Char} {c : Char}

/-! ### Lexemes -/

theorem locateRuns_append (start : Nat) (rs rs' : List (List Char)) :
    locateRuns start (rs ++ rs') =
      locateRuns start rs ++ locateRuns (start + byteLength rs.flatten) rs' := by
  induction rs generalizing start with
  | nil => rfl
  | cons r rest ih =>
      rw [List.cons_append, locateRuns, ih, locateRuns, List.cons_append, List.flatten_cons,
        Text.byteLength_append, Nat.add_assoc]

/-- A text that is not cut inside a word has the lexemes of its parts. -/
theorem lexemesFrom_append (hcut : ∀ c ∈ t.head?, isWordChar c = false) (start : Nat)
    (s : List Char) :
    lexemesFrom start (s ++ t) = lexemesFrom start s ++ lexemesFrom (start + byteLength s) t := by
  have happend : runs (s ++ t) = runs s ++ runs t :=
    List.splitBy_append fun x _ y hy => by rw [hcut y hy, Bool.and_false]
  have hflatten : (runs s).flatten = s := List.flatten_splitBy _ s
  rw [lexemesFrom, happend, locateRuns_append, List.filterMap_append, hflatten]
  rfl

/-- Spaces behind a text add no lexeme. -/
theorem lexemes_append_spaces (h : ∀ c ∈ skipped, c ∈ spaces) (s : List Char) :
    lexemes (s ++ skipped) = lexemes s := by
  have happend := lexemesFrom_append (t := skipped)
    (fun c hc => not_isWordChar_of_mem_spaces (h c (List.mem_of_mem_head? hc))) 0 s
  have hnone := lexemesFrom_skipped h (0 + byteLength s) []
  rw [List.append_nil] at hnone
  rw [hnone] at happend
  exact happend.trans (List.append_nil _)

/-- The lexemes of a text with a character in it that belongs nowhere: those of the text in front of
it, the character, and those of the text behind it. -/
theorem lexemes_append_foreign (hc : ¬ Ordinary c) (front back : List Char) :
    lexemes (front ++ c :: back) = lexemes front ++
      .unrecognized ⟨c, .ofRange (byteLength front) (byteLength (front ++ [c]))⟩ ::
        lexemesFrom (byteLength (front ++ [c])) back := by
  have hspace : c ∉ spaces := fun h => hc (.inl h)
  have hplus : c ≠ '+' := fun h => hc (.inr (.inl h))
  have hword : ¬ isWordChar c := fun h => hc (.inr (.inr h))
  have happend := lexemesFrom_append (t := c :: back)
    (fun d hd => by cases hd; exact Bool.eq_false_iff.2 hword) 0 front
  rw [Nat.zero_add, lexemesFrom_unrecognized hspace hplus hword,
    ← Text.byteLength_append] at happend
  exact happend

/-! ### Sums -/

section Sums

variable {ls rest : List Lexeme} {operands : List Operand} {last : Operand} {u : Unrecognized}
  {i : Nat}

/-- No place of a sum has a lexeme that belongs nowhere, and the place behind it has none either. -/
theorem IsSum.not_unrecognized (h : IsSum ls operands last) (hi : i ≤ 2 * operands.length + 1) :
    ls[i]? ≠ some (.unrecognized u) := by
  intro hu
  rcases Nat.lt_or_eq_of_le hi with hlt | rfl
  · -- Operands stand in the even places and plus signs in the odd ones.
    obtain ⟨j, rfl | rfl⟩ : ∃ j, i = 2 * j ∨ i = 2 * j + 1 := ⟨i / 2, by omega⟩
    · rcases Nat.lt_or_eq_of_le (show j ≤ operands.length by omega) with hj | rfl
      · obtain ⟨l, hl, t, rfl, _⟩ := h.sums.operand j _ (List.getElem?_eq_getElem hj)
        simp [hu] at hl
      · obtain ⟨l, hl, t, rfl, _⟩ := h.last
        simp [hu] at hl
    · obtain ⟨t, ht, _⟩ := h.sums.plus j (by omega)
      simp [hu] at ht
  · have hends := h.ends
    rw [hu] at hends
    exact hends

/-- Behind a sum there is a word, or no lexeme at all. -/
theorem IsSum.length_eq_or_exists_token (h : IsSum ls operands last) :
    ls.length = 2 * operands.length + 1 ∨ ∃ t, ls[2 * operands.length + 1]? = some (.token t) := by
  obtain ⟨lexeme, hlexeme, _⟩ := h.last
  have hlt := (List.getElem?_eq_some_iff.1 hlexeme).1
  cases hbehind : ls[2 * operands.length + 1]? with
  | none =>
      have hle := List.getElem?_eq_none_iff.1 hbehind
      exact .inl (by omega)
  | some behind =>
      cases behind with
      | token t => exact .inr ⟨t, rfl⟩
      | unrecognized u => exact absurd hbehind (h.not_unrecognized (Nat.le_refl _))

/-- With a lexeme that belongs nowhere behind them, lexemes begin with a sum exactly if they do so
without it and a word ends the sum. -/
theorem isSum_append_unrecognized_iff :
    IsSum (ls ++ .unrecognized u :: rest) operands last ↔
      IsSum ls operands last ∧ ∃ t, ls[2 * operands.length + 1]? = some (.token t) := by
  constructor
  · intro h
    -- The lexeme that belongs nowhere is not among those of the sum.
    have hlt : 2 * operands.length + 1 < ls.length := by
      by_contra hle
      refine h.not_unrecognized (Nat.le_of_not_lt hle) (u := u) ?_
      rw [List.getElem?_append_right (Nat.le_refl _), Nat.sub_self]
      rfl
    have hsum : IsSum ls operands last := h.congr fun i hi =>
      (List.getElem?_append_left (Nat.lt_of_le_of_lt hi hlt)).symm
    refine ⟨hsum, hsum.length_eq_or_exists_token.resolve_left ?_⟩
    omega
  · intro ⟨hsum, t, ht⟩
    have hlt := (List.getElem?_eq_some_iff.1 ht).1
    exact hsum.congr fun i hi => List.getElem?_append_left (Nat.lt_of_le_of_lt hi hlt)

theorem Sums.append (h : Sums ls operands) (rest : List Lexeme) : Sums (ls ++ rest) operands := by
  have happend : ∀ {i l}, ls[i]? = some l → (ls ++ rest)[i]? = some l := fun hi => by
    rw [List.getElem?_append_left (List.getElem?_eq_some_iff.1 hi).1, hi]
  refine ⟨fun i o hi => ?_, fun i hi => ?_⟩
  · obtain ⟨l, hl, hwrites⟩ := h.operand i o hi
    exact ⟨l, happend hl, hwrites⟩
  · obtain ⟨t, ht, hplus⟩ := h.plus i hi
    exact ⟨t, happend ht, hplus⟩

/-- Each operand has a lexeme, and each plus sign. -/
theorem Sums.le_length (h : Sums ls operands) : 2 * operands.length ≤ ls.length := by
  cases hlength : operands.length with
  | zero => exact Nat.zero_le _
  | succ n =>
      obtain ⟨t, ht, _⟩ := h.plus n (by omega)
      have hlt := (List.getElem?_eq_some_iff.1 ht).1
      omega

end Sums

/-! ### Reading -/

section Read

/-- A word stands behind the sum of a formula, and ends it. -/
def EndsByWord (body : List Char) : Prop :=
  ∃ operands last t, IsSum (lexemes body) operands last ∧
    (lexemes body)[2 * operands.length + 1]? = some (.token t)

/-- A formula that ends by a word reads. -/
theorem EndsByWord.exists_read (h : EndsByWord front) (store : Store) :
    ∃ root, (read front store).1 = .ok root := by
  obtain ⟨operands, last, _, hsum, _⟩ := h
  exact (exists_read_eq_ok_iff front store).2 ⟨operands, last, hsum⟩

/-- Whether a word ends a formula is seen from its lexemes. -/
theorem endsByWord_congr (h : lexemes s = lexemes t) : EndsByWord s ↔ EndsByWord t := by
  rw [EndsByWord, EndsByWord, h]

/-- The error of a text in which something stands that belongs nowhere, by what the text in front of
it gives: the error that was found before it, and otherwise this one. -/
def FormulaError.cutBy (u : Unrecognized) : Except FormulaError NodeId → FormulaError
  | .error (.unrecognized v) => .unrecognized v
  | .error (.invalidReference text span) => .invalidReference text span
  | .error (.unexpectedEnd _) => .unrecognized u
  | .ok _ => .unrecognized u

/-- A text with a character in it that belongs nowhere is a formula exactly if a word in front of
the character ends one. -/
theorem read_append_foreign_iff (hc : ¬ Ordinary c) (front back : List Char) (store : Store) :
    (∃ root, (read (front ++ c :: back) store).1 = .ok root) ↔ EndsByWord front := by
  rw [exists_read_eq_ok_iff, lexemes_append_foreign hc]
  constructor
  · intro ⟨operands, last, hsum⟩
    obtain ⟨hfront, t, ht⟩ := isSum_append_unrecognized_iff.1 hsum
    exact ⟨operands, last, t, hfront, ht⟩
  · intro ⟨operands, last, t, hfront, ht⟩
    exact ⟨operands, last, isSum_append_unrecognized_iff.2 ⟨hfront, t, ht⟩⟩

/-- Then it says what the text in front of the character says. -/
theorem read_append_foreign (hc : ¬ Ordinary c) (hword : EndsByWord front) (back : List Char)
    (store : Store) : read (front ++ c :: back) store = read front store := by
  obtain ⟨operands, last, t, hsum, ht⟩ := hword
  have hlt := (List.getElem?_eq_some_iff.1 ht).1
  refine read_congr hsum (fun i hi => ?_) store
  rw [lexemes_append_foreign hc, List.getElem?_append_left (Nat.lt_of_le_of_lt hi hlt)]

/-- Otherwise it does not read, and the character is the error, unless the text in front of it has
one. -/
theorem read_append_foreign_error (hc : ¬ Ordinary c) (hword : ¬ EndsByWord front)
    (back : List Char) (store : Store) :
    (read (front ++ c :: back) store).1 = .error (.cutBy
      ⟨c, .ofRange (byteLength front) (byteLength (front ++ [c]))⟩ (read front store).1) := by
  rw [read_eq_error_iff, lexemes_append_foreign hc]
  generalize hu : Unrecognized.mk c (.ofRange (byteLength front) (byteLength (front ++ [c]))) = u
  -- A lexeme in front of the character keeps its place, and the next place is that of the
  -- character.
  have hleft : ∀ {i l} {rest : List Lexeme}, (lexemes front)[i]? = some l →
      (lexemes front ++ rest)[i]? = some l := fun hi => by
    rw [List.getElem?_append_left (List.getElem?_eq_some_iff.1 hi).1, hi]
  have hnext : ∀ {i} {rest : List Lexeme}, (lexemes front).length = i →
      (lexemes front ++ .unrecognized u :: rest)[i]? = some (.unrecognized u) := fun hi => by
    rw [List.getElem?_append_right (by omega), hi, Nat.sub_self]
    rfl
  cases hread : (read front store).1 with
  | ok root =>
      obtain ⟨operands, last, hsum⟩ := (exists_read_eq_ok_iff front store).1 ⟨root, hread⟩
      obtain ⟨lexeme, hlexeme, hwrites⟩ := hsum.last
      have hlength := hsum.length_eq_or_exists_token.resolve_right fun ⟨t, ht⟩ =>
        hword ⟨operands, last, t, hsum, ht⟩
      exact ⟨operands, hsum.sums.append _, .behind (hleft hlexeme) hwrites (hnext hlength)⟩
  | error e =>
      obtain ⟨operands, hsums, hfails⟩ := (read_eq_error_iff front store e).1 hread
      refine ⟨operands, hsums.append _, ?_⟩
      cases hfails with
      | unrecognized hv => exact .unrecognized (hleft hv)
      | exhausted hnone =>
          have hle := List.getElem?_eq_none_iff.1 hnone
          exact .unrecognized (hnext (Nat.le_antisymm hle hsums.le_length))
      | noOperand hword hno => exact .noOperand (hleft hword) hno
      | behind hlexeme hwrites hv => exact .behind (hleft hlexeme) hwrites (hleft hv)

end Read

end PipeSheet.Formula
