import PipeSheet.Formula.Token
import PipeSheet.Proofs.Number.WholeText
import PipeSheet.Proofs.Sheet.Basic
import PipeSheet.Proofs.Text.Characters
/-!
# PipeSheet.Proofs.Formula.OperandText

**The text of an operand is a word that writes the operand.**

A word that writes a number has letters, digits and underscores only. So the number has no sign and
no fraction, and the text in which it is shown is a word again. A word that writes a reference is a
cell name, up to zeros in front of its row. The label of the position is the name without them; it
reads as no number, because a letter stands before a digit in it.

* `Position.Named`: positions with a cell name;
* `Operand.Shown`: operands whose text writes them;
* `Operand.shown_of_ofText?`: all operands of words are such.
-/

namespace PipeSheet

/-! ### Cell names -/

theorem Number.lt_of_naturalOf? {digits : List Char} {n : Nat} (h : naturalOf? digits = some n) :
    n < naturalLimit := by
  unfold naturalOf? at h
  split at h
  · next hdigits =>
    cases h
    exact hdigits.2.2
  · cases h

namespace Position

/-- The position has a cell name. -/
structure Named (q : Position) : Prop where
  row_lt : q.row < Number.naturalLimit
  col_lt : q.col < lettered

/-- The letter of a column. -/
def letterOf (col : Nat) : Char :=
  Char.ofNat ('A'.toNat + col)

theorem letterOf_spec : ∀ col < lettered, (letterOf col).isUpper ∧ (letterOf col).isAlphanum ∧
    (letterOf col).toNat = 'A'.toNat + col := by
  decide

variable {q : Position} {text : List Char}

theorem named_of_ofName? (h : ofName? text = some q) : q.Named := by
  unfold ofName? at h
  split at h
  · cases h
  · next letter digits =>
    split at h
    · next hupper =>
      obtain ⟨row, hrow, rfl⟩ := Option.map_eq_some_iff.1 h
      refine ⟨Number.lt_of_naturalOf? hrow, ?_⟩
      have hcode := Text.code_of_isUpper hupper
      show letter.toNat - 65 < 26
      omega
    · cases h

namespace Named

theorem label_eq (h : q.Named) : q.label = letterOf q.col :: Nat.toDigits 10 q.row := by
  have hletter : q.letter? = some (letterOf q.col) := if_pos h.col_lt
  rw [label, hletter]

/-- The label of a position with a cell name is such a name. -/
theorem ofName?_label (h : q.Named) : ofName? q.label = some q := by
  obtain ⟨hupper, _, hcode⟩ := letterOf_spec q.col h.col_lt
  have hrow : Number.naturalOf? (Nat.toDigits 10 q.row) = some q.row := by
    have hvalue : Nat.ofDigitChars 10 (Nat.toDigits 10 q.row) 0 = q.row :=
      Nat.ofDigitChars_toDigits (by decide) (by decide)
    have hdigits : (Nat.toDigits 10 q.row).all Char.isDigit :=
      List.all_eq_true.2 fun d hd => Nat.isDigit_of_mem_toDigits (by decide) (by decide) hd
    rw [Number.naturalOf?, hvalue, if_pos ⟨Nat.toDigits_ne_nil, hdigits, h.row_lt⟩]
  rw [h.label_eq, ofName?, if_pos hupper, hrow, Option.map_some, hcode, Nat.add_sub_cancel_left]

theorem isAlphanum_label (h : q.Named) : ∀ c ∈ q.label, c.isAlphanum := by
  rw [h.label_eq]
  intro c hc
  rcases List.mem_cons.1 hc with rfl | hc
  · exact (letterOf_spec q.col h.col_lt).2.1
  · have hdigit : c.isDigit := Nat.isDigit_of_mem_toDigits (by decide) (by decide) hc
    rw [Char.isAlphanum, hdigit, Bool.or_true]

end Named

end Position

namespace Number

/-- A capital letter and a digit begin no number. -/
theorem read?_of_isUpper {letter d : Char} (hletter : letter.isUpper) (hd : d.isDigit)
    (rest : List Char) : read? (letter :: d :: rest) = none := by
  have hne : ∀ c : Char, ¬ c.isUpper → letter ≠ c := fun c hc heq => hc (heq ▸ hletter)
  have hnodigit : letter.isDigit = false := by
    refine Bool.eq_false_iff.2 fun hdigit => ?_
    have hcode := Text.code_of_isUpper hletter
    have hcode' := Text.code_of_isDigit hdigit
    omega
  have hsplit : splitSign (letter :: d :: rest) = (false, letter :: d :: rest) := by
    unfold splitSign
    split
    · next h => exact absurd (List.cons.inj h).1 (hne '-' (by decide))
    · next h => exact absurd (List.cons.inj h).1 (hne '+' (by decide))
    · rfl
  -- The words for numbers have a letter in the second place.
  have hword : ∀ (first second : Char) (more : List Char), ¬ second.isDigit →
      (letter :: d :: rest).map Char.toLower ≠ first :: second :: more := by
    intro first second more hsecond h
    rw [List.map_cons, List.map_cons, toLower_of_isDigit hd] at h
    exact hsecond ((List.cons.inj (List.cons.inj h).2).1 ▸ hd)
  have hdecimal : readDecimal? (letter :: d :: rest) = none := by
    have hspan : (letter :: d :: rest).span Char.isDigit = ([], letter :: d :: rest) := by
      rw [List.span_eq_takeWhile_dropWhile, List.takeWhile_cons_of_neg (by simp [hnodigit]),
        List.dropWhile_cons_of_neg (by simp [hnodigit])]
    have hfraction : splitFraction (letter :: d :: rest) = ([], letter :: d :: rest) := by
      unfold splitFraction
      split
      · next h => exact absurd (List.cons.inj h).1 (hne '.' (by decide))
      · rfl
    unfold readDecimal?
    rw [hspan]
    dsimp only
    rw [hfraction]
    exact if_pos ⟨rfl, rfl⟩
  rw [read?, hsplit]
  dsimp only
  unfold readUnsigned?
  dsimp only
  rw [if_neg (not_or.2 ⟨hword _ _ _ (by decide), hword _ _ _ (by decide)⟩),
    if_neg (hword _ _ _ (by decide)), hdecimal, Option.map_none]

end Number

/-! ### Operands -/

namespace Formula

/-- The text in which an operand is shown is a word that writes it. -/
structure Operand.Shown (o : Operand) : Prop where
  ne_nil : o.tree.render ≠ []
  isAlphanum : ∀ c ∈ o.tree.render, c.isAlphanum
  ofText?_eq : ofText? o.tree.render = some o

/-- Every operand that a word writes is shown by a word that writes it. -/
theorem Operand.shown_of_ofText? {word : List Char} {o : Operand} (hword : ∀ c ∈ word, isWordChar c)
    (h : ofText? word = some o) : o.Shown := by
  have hnot : ∀ c, isWordChar c = false → c ∉ word := fun c hc hmem => by
    rw [hword c hmem] at hc
    cases hc
  unfold ofText? at h
  split at h
  · next value hread =>
    cases h
    have hwhole := Number.whole_of_read? (hnot '-' (by decide)) (hnot '.' (by decide)) hread
    have htext : (number value).tree.render = Number.plain value := Tree.render_number value
    refine ⟨?_, ?_, ?_⟩
    · rw [htext]
      exact Number.plain_ne_nil value
    · rw [htext]
      exact hwhole.isAlphanum_plain
    · rw [htext, ofText?, Number.read?_plain]
  · obtain ⟨q, hq, rfl⟩ := Option.map_eq_some_iff.1 h
    have hnamed := Position.named_of_ofName? hq
    have htext : (ref q).tree.render = q.label := Tree.render_ref q
    have hnone : Number.read? q.label = none := by
      obtain ⟨d, rest, hrow⟩ := List.exists_cons_of_ne_nil (@Nat.toDigits_ne_nil q.row 10)
      have hd : d.isDigit := Nat.isDigit_of_mem_toDigits (by decide) (by decide)
        (hrow ▸ List.mem_cons_self)
      rw [hnamed.label_eq, hrow]
      exact Number.read?_of_isUpper (Position.letterOf_spec q.col hnamed.col_lt).1 hd rest
    refine ⟨?_, ?_, ?_⟩
    · rw [htext, hnamed.label_eq]
      exact List.cons_ne_nil _ _
    · rw [htext]
      exact hnamed.isAlphanum_label
    · rw [htext, ofText?, hnone, hnamed.ofName?_label]
      rfl

end Formula

end PipeSheet
