import PipeSheet.Proofs.Formula.OperandText
import PipeSheet.Proofs.Formula.Partition
import PipeSheet.Proofs.Formula.Sum
import PipeSheet.Proofs.Number.Natural
/-!
# PipeSheet.Proofs.Formula.CellName

**Cell names and positions correspond, and no text stands for two things.**

A name is a letter and the digits of a row. Zeros in front of the row are the only freedom in it,
and the label of a position is its name without them. Positions without a letter are labelled by
both of their numbers, with a letter between them, where a name can have none; so such a label is no
name, and no two labels are the same.

A formula takes a word for a number if it can. It cannot take a name for one: a name begins with a
capital letter and goes on with a digit, and no number does.

* `Position.IsName`: the letter and the digits of a name;
* `Formula.read_word`: a formula of one word;
* `Position.names_correspond`: the law.
-/

namespace PipeSheet

/-! ### Formulas of one word -/

namespace Formula

variable {word : List Char} {o : Operand}

/-- A word that writes an operand is a formula with one node, whatever nodes were there. -/
theorem read_word (hword : ∀ c ∈ word, isWordChar c) (hne : word ≠ [])
    (h : Operand.ofText? word = some o) (store : Store) :
    read word store = (.ok (store.push o.node).1, (store.push o.node).2) := by
  have hlexemes : lexemes word = [.token ⟨.word, word, .ofRange 0 (0 + Text.byteLength word)⟩] := by
    have hcut := @lexemesFrom_word word [] hne hword nofun 0
    rwa [List.append_nil] at hcut
  have hoperands : operandsOf word = ([o], none) := by
    rw [operandsOf, hlexemes]
    simp only [scan, h]
  rw [read_eq, hoperands]
  rfl

end Formula

namespace Position

/-- A capital letter and digits make a name. The row is not longer than 64 bits. -/
structure IsName (letter : Char) (digits : List Char) : Prop where
  isUpper : letter.isUpper
  ne_nil : digits ≠ []
  isDigit : ∀ d ∈ digits, d.isDigit
  row_lt : Nat.ofDigitChars 10 digits 0 < 2 ^ 64

variable {letter : Char} {digits name : List Char} {p q : Position}

/-! ### Names -/

theorem ofName?_eq_some_iff : ofName? name = some p ↔ ∃ letter digits, name = letter :: digits ∧
    IsName letter digits ∧ p = ⟨Nat.ofDigitChars 10 digits 0, letter.toNat - 'A'.toNat⟩ := by
  constructor
  · intro h
    unfold ofName? at h
    split at h
    · cases h
    · next letter digits =>
      split at h
      · next hupper =>
        obtain ⟨row, hrow, rfl⟩ := Option.map_eq_some_iff.1 h
        obtain ⟨hne, hdigits, rfl, hlt⟩ := Number.naturalOf?_eq_some_iff.1 hrow
        exact ⟨letter, digits, rfl, ⟨hupper, hne, hdigits, hlt⟩, rfl⟩
      · cases h
  · rintro ⟨letter, digits, rfl, ⟨hupper, hne, hdigits, hlt⟩, rfl⟩
    rw [ofName?, if_pos hupper, Number.naturalOf?_eq_some_iff.2 ⟨hne, hdigits, rfl, hlt⟩]
    rfl

/-- The letter of the column that a letter has. -/
theorem letterOf_of_isUpper (h : letter.isUpper) :
    letterOf (letter.toNat - 'A'.toNat) = letter := by
  have hcode := Text.code_of_isUpper h
  have hcol : letter.toNat - 'A'.toNat < lettered := by
    show letter.toNat - 65 < 26
    omega
  refine Char.toNat_inj.1 ?_
  rw [(letterOf_spec _ hcol).2.2]
  show 65 + (letter.toNat - 65) = letter.toNat
  omega

/-- The label of the position that a name writes is the name, without zeros in front of the row. -/
theorem label_of_ofName? (h : ofName? (letter :: digits) = some p) :
    p.label = letter :: Number.withoutZeros digits := by
  have hnamed := named_of_ofName? h
  obtain ⟨_, _, hname, his, rfl⟩ := ofName?_eq_some_iff.1 h
  cases hname
  rw [hnamed.label_eq, letterOf_of_isUpper his.isUpper,
    Number.toDigits_ofDigitChars his.ne_nil his.isDigit]

/-! ### Names in formulas -/

theorem read?_of_ofName? (h : ofName? name = some p) : Number.read? name = none := by
  obtain ⟨letter, digits, rfl, hname, _⟩ := ofName?_eq_some_iff.1 h
  obtain ⟨d, rest, rfl⟩ := List.exists_cons_of_ne_nil hname.ne_nil
  exact Number.read?_of_isUpper hname.isUpper (hname.isDigit d List.mem_cons_self) rest

theorem isWordChar_of_ofName? (h : ofName? name = some p) : ∀ c ∈ name, Formula.isWordChar c := by
  obtain ⟨letter, digits, rfl, hname, _⟩ := ofName?_eq_some_iff.1 h
  intro c hc
  unfold Formula.isWordChar Char.isAlphanum Char.isAlpha
  rcases List.mem_cons.1 hc with rfl | hc
  · rw [hname.isUpper]
    rfl
  · rw [hname.isDigit c hc, Bool.or_true]
    rfl

/-- A formula that is a name is a reference. -/
theorem read_name (h : ofName? name = some p) (store : Formula.Store) :
    Formula.read name store = (.ok (store.push (.ref p)).1, (store.push (.ref p)).2) := by
  have hne : name ≠ [] := by
    rintro rfl
    cases h
  have htext : Formula.Operand.ofText? name = some (.ref p) := by
    rw [Formula.Operand.ofText?, read?_of_ofName? h, h]
    rfl
  exact Formula.read_word (isWordChar_of_ofName? h) hne htext store

/-! ### Labels -/

theorem label_of_le (h : lettered ≤ p.col) :
    p.label = 'R' :: (Nat.toDigits 10 p.row ++ 'C' :: Nat.toDigits 10 p.col) := by
  rw [label, letter?, if_neg (Nat.not_lt.2 h)]
  rfl

theorem label_of_lt (h : p.col < lettered) : p.label = letterOf p.col :: Nat.toDigits 10 p.row := by
  rw [label, letter?, if_pos h]
  rfl

/-- No digit is a letter. -/
theorem not_mem_toDigits (n : Nat) : 'C' ∉ Nat.toDigits 10 n := fun h =>
  absurd (Nat.isDigit_of_mem_toDigits (by decide) (by decide) h) (by decide)

/-- The label of a position without a letter is no name. -/
theorem ofName?_label_of_le (h : lettered ≤ p.col) : ofName? p.label = none := by
  refine Option.eq_none_iff_forall_ne_some.2 fun q hq => ?_
  obtain ⟨letter, digits, hlabel, hname, _⟩ := ofName?_eq_some_iff.1 hq
  rw [label_of_le h] at hlabel
  cases hlabel
  exact absurd (hname.isDigit 'C' (by simp)) (by decide)

theorem label_injective (h : p.label = q.label) : p = q := by
  obtain ⟨row, col⟩ := p
  obtain ⟨row', col'⟩ := q
  rcases Nat.lt_or_ge col lettered with hcol | hcol
  · rcases Nat.lt_or_ge col' lettered with hcol' | hcol'
    · rw [label_of_lt hcol, label_of_lt hcol'] at h
      obtain ⟨hletter, hdigits⟩ := List.cons.inj h
      have hcode := congrArg Char.toNat hletter
      rw [(letterOf_spec col hcol).2.2, (letterOf_spec col' hcol').2.2] at hcode
      obtain rfl : row = row' := Number.toDigits_injective hdigits
      obtain rfl : col = col' := Nat.add_left_cancel hcode
      rfl
    · rw [label_of_lt hcol, label_of_le hcol'] at h
      exact absurd ((List.cons.inj h).2 ▸ by simp) (not_mem_toDigits row)
  · rcases Nat.lt_or_ge col' lettered with hcol' | hcol'
    · rw [label_of_le hcol, label_of_lt hcol'] at h
      exact absurd ((List.cons.inj h).2 ▸ by simp) (not_mem_toDigits row')
    · rw [label_of_le hcol, label_of_le hcol'] at h
      obtain ⟨hrow, _, hcol⟩ := (List.append_cons_inj_of_notMem (not_mem_toDigits row)
        (not_mem_toDigits col)).1 (List.cons.inj h).2
      obtain rfl : row = row' := Number.toDigits_injective hrow
      obtain rfl : col = col' := Number.toDigits_injective hcol
      rfl

/-! ### The law -/

/-- The names are the texts of a capital letter and the digits of a row with 64 bits, and a position
is labelled by its name without zeros in front of the row. So the position of a label that is a name
is the one it labels; other labels are no names, and no two positions share a label. A formula that
is a name is a single reference to its position, and so is a formula that is the label of a position
with a letter. -/
theorem names_correspond :
    (∀ name, (∃ p, ofName? name = some p) ↔
      ∃ letter digits, name = letter :: digits ∧ IsName letter digits) ∧
    (∀ letter digits p, ofName? (letter :: digits) = some p →
      p = ⟨Nat.ofDigitChars 10 digits 0, letter.toNat - 'A'.toNat⟩ ∧
      p.label = letter :: Number.withoutZeros digits) ∧
    (∀ name p, ofName? name = some p → Number.read? name = none ∧
      Formula.read name .empty = (.ok (.ofIndex 0), ⟨#[.ref p]⟩)) ∧
    (∀ p : Position, p.row < 2 ^ 64 → p.col < 26 → ofName? p.label = some p ∧
      Formula.read p.label .empty = (.ok (.ofIndex 0), ⟨#[.ref p]⟩)) ∧
    (∀ p : Position, 26 ≤ p.col → ofName? p.label = none) ∧
    ∀ p q : Position, p ≠ q → p.label ≠ q.label := by
  have hread : ∀ name p, ofName? name = some p →
      Formula.read name .empty = (.ok (.ofIndex 0), ⟨#[.ref p]⟩) := fun _ _ h => read_name h .empty
  refine ⟨fun name => ?_, fun letter digits p h => ?_, fun name p h => ?_, fun p hrow hcol => ?_,
    fun p => ofName?_label_of_le, fun p q => mt label_injective⟩
  · simp only [ofName?_eq_some_iff]
    constructor
    · rintro ⟨p, letter, digits, hname, his, _⟩
      exact ⟨letter, digits, hname, his⟩
    · rintro ⟨letter, digits, hname, his⟩
      exact ⟨_, letter, digits, hname, his, rfl⟩
  · obtain ⟨_, _, hname, _, hp⟩ := ofName?_eq_some_iff.1 h
    cases hname
    exact ⟨hp, label_of_ofName? h⟩
  · exact ⟨read?_of_ofName? h, hread name p h⟩
  · have hname := Named.ofName?_label ⟨hrow, hcol⟩
    exact ⟨hname, hread _ p hname⟩

/-- A name that looks like a number, with zeros in front of its row; the last column that has a
letter and the one behind it; and two labels of which one begins with the other. -/
theorem names_correspond_of_exponent :
    ofName? "E005".toList = some ⟨5, 4⟩ ∧ label ⟨5, 4⟩ = "E5".toList ∧
    Formula.read "E005".toList .empty = (.ok (.ofIndex 0), ⟨#[.ref ⟨5, 4⟩]⟩) ∧
    ofName? (label ⟨0, 25⟩) = some ⟨0, 25⟩ ∧ ofName? (label ⟨4, 26⟩) = none ∧
    (⟨4, 17⟩ : Position) ≠ ⟨4, 30⟩ ∧ label ⟨4, 17⟩ = "R4".toList ∧
    label ⟨4, 17⟩ ≠ label ⟨4, 30⟩ := by
  have hname : ofName? "E005".toList = some ⟨5, 4⟩ := by decide
  have hne : (⟨4, 17⟩ : Position) ≠ ⟨4, 30⟩ := by decide
  obtain ⟨_, hlabel, hread, hback, hnone, hdistinct⟩ := names_correspond
  exact ⟨hname, (hlabel _ _ _ hname).2, (hread _ _ hname).2,
    (hback ⟨0, 25⟩ (by decide) (by decide)).1, hnone ⟨4, 26⟩ (by decide), hne, by decide,
    hdistinct _ _ hne⟩

end Position

end PipeSheet
