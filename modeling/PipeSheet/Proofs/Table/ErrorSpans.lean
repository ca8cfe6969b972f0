import PipeSheet.Proofs.Formula.Language
import PipeSheet.Proofs.Formula.Partition
import PipeSheet.Proofs.Table.Formulas
/-!
# PipeSheet.Proofs.Table.ErrorSpans

**The span of an error is what is wrong in the source, and nothing in front of it is.**

A formula is read from left to right and no farther than its first error. So when the reader stops,
what it has left behind is operands with plus signs behind them (`Summands`), or these and one more
operand if it was a plus sign that it looked for. The error is what stands next in the source: a
character that is in no token, a token that is no operand, or the end.

* `Summands`: a text of operands, each with a plus sign behind it;
* `FormulaError.Marks`: an error and the three parts of the source that it marks off;
* `FormulaError.PointsInto`: the span of an error slices its part out of the source;
* `error_points_into_source`: this holds for formulas, and for tables of the formula in the cell
  that is named.
-/

namespace PipeSheet

open Formula (FormulaError Lexeme Operand isWordChar spaces)
open Text (byteLength)

/-! ### What stands before an error -/

namespace Formula

/-- A text of operands, each with a plus sign behind it, and spaces anywhere between them. -/
inductive Summands : List Char → Prop
  | nil : Summands []
  | gap {s skipped : List Char} : Summands s → (∀ c ∈ skipped, c ∈ spaces) → Summands (s ++ skipped)
  | plus {s word skipped : List Char} {o : Operand} : Summands s → (∀ c ∈ word, isWordChar c) →
      Operand.ofText? word = some o → (∀ c ∈ skipped, c ∈ spaces) →
      Summands (s ++ word ++ skipped ++ ['+'])

theorem Summands.ordinary {s : List Char} (h : Summands s) : ∀ c ∈ s, Ordinary c := by
  induction h with
  | nil => nofun
  | gap _ hskipped ih => exact List.forall_mem_append.2 ⟨ih, fun c hc => .inl (hskipped c hc)⟩
  | plus _ hword _ hskipped ih =>
      have hplus : ∀ c ∈ ['+'], Ordinary c := fun c hc => .inr (.inl (List.mem_singleton.1 hc))
      simp only [List.forall_mem_append]
      exact ⟨⟨⟨ih, fun c hc => .inr (.inr (hword c hc))⟩, fun c hc => .inl (hskipped c hc)⟩, hplus⟩

/-- Apart from spaces, the text is empty or ends in a plus sign. -/
def EndsInPlus (s : List Char) : Prop :=
  ∀ c ∈ (s.filter (· ∉ spaces)).getLast?, c = '+'

theorem Summands.endsInPlus {s : List Char} (h : Summands s) : EndsInPlus s := by
  unfold EndsInPlus
  induction h with
  | nil => nofun
  | @gap s skipped _ hskipped ih =>
      have hnone : skipped.filter (· ∉ spaces) = [] := by simpa using hskipped
      rwa [List.filter_append, hnone, List.append_nil]
  | plus _ _ _ _ _ =>
      have hplus : ['+'].filter (· ∉ spaces) = ['+'] := by decide
      rw [List.filter_append, hplus, List.getLast?_concat]
      rintro c ⟨⟩
      rfl

/-! ### Errors in their places -/

/-- The error is what stands in a source between two parts of it. -/
inductive FormulaError.Marks : FormulaError → List Char → List Char → List Char → Prop
  /-- The first character that is in no token. -/
  | unrecognized {u : Unrecognized} {before after : List Char} : (∀ c ∈ before, Ordinary c) →
      ¬ Ordinary u.found → Marks (.unrecognized u) before [u.found] after
  /-- A token, behind operands with plus signs, that is no operand. -/
  | invalidReference {t : Token} {before after : List Char} : Summands before →
      EndsInPlus before → (Lexeme.token t).StandsAt before after → Operand.ofText? t.text = none →
      Marks (.invalidReference t.text t.span) before t.text after
  /-- The end, behind operands with plus signs. -/
  | unexpectedEnd {stop : Span} {source : List Char} : Summands source → EndsInPlus source →
      Marks (.unexpectedEnd stop) source [] []

/-- The span of the error lies in the source, begins and ends between two characters, and slices out
of the source the part that the error marks. -/
def FormulaError.PointsInto (source : List Char) (e : FormulaError) : Prop :=
  ∃ before middle after, source = before ++ middle ++ after ∧
    e.span.start.toNat = byteLength before ∧ e.span.stop.toNat = byteLength (before ++ middle) ∧
    e.span.slice? source = some middle ∧ e.Marks before middle after

section Places

variable {source before middle after rest : List Char} {e : FormulaError} {ls : List Lexeme}
  {store store' : Store}

/-- In a source with 32-bit offsets it is enough to know the offsets of the part. -/
theorem FormulaError.Marks.pointsInto (h : e.Marks before middle after)
    (hspan : e.span = .ofRange (byteLength before) (byteLength (before ++ middle)))
    (hsource : source = before ++ middle ++ after) (hsize : byteLength source < 2 ^ 32) :
    e.PointsInto source := by
  have hmiddle : byteLength (before ++ middle) < 2 ^ 32 := by
    rw [hsource, Text.byteLength_append] at hsize
    omega
  have hbefore : byteLength before < 2 ^ 32 := by
    rw [Text.byteLength_append] at hmiddle
    omega
  refine ⟨before, middle, after, hsource, ?_, ?_, ?_, h⟩
  · rw [hspan]
    exact UInt32.toNat_ofNat_of_lt' hbefore
  · rw [hspan]
    exact UInt32.toNat_ofNat_of_lt' hmiddle
  · rw [hspan, hsource, Text.byteLength_append]
    exact Span.slice?_ofRange hmiddle

/-- What is unrecognized stands behind ordinary characters. -/
theorem Lexeme.StandsAt.marks {u : Unrecognized} (h : (Lexeme.unrecognized u).StandsAt before after)
    (hbefore : ∀ c ∈ before, Ordinary c) :
    FormulaError.Marks (.unrecognized u) before [u.found] after := by
  obtain ⟨hspace, hplus, hword⟩ := h.unrecognized u rfl
  exact .unrecognized hbefore fun hordinary => by
    obtain h | h | h := hordinary
    · exact hspace h
    · exact hplus h
    · exact hword h

/-- A token that writes an operand is a word. -/
theorem Lexeme.StandsAt.isWordChar {t : Token} (h : (Lexeme.token t).StandsAt before after)
    {o : Operand} (ho : Operand.ofText? t.text = some o) : ∀ c ∈ t.text, isWordChar c := by
  cases hkind : t.kind with
  | word => exact (h.word t rfl hkind).2.1
  | plus =>
      have hnone : Operand.ofText? ['+'] = none := by decide
      rw [h.plus t rfl hkind, hnone] at ho
      cases ho

/-- Behind operands with plus signs, what the reader stops at is what the error says. -/
theorem pointsInto_of_scan (hsize : byteLength source < 2 ^ 32) (hsource : source = before ++ rest)
    (hbefore : Summands before) (hfalls : FallsInto before rest ls)
    (h : (scan (.ofRange (byteLength source) (byteLength source)) ls).2 = some e) :
    e.PointsInto source := by
  fun_induction scan (.ofRange (byteLength source) (byteLength source)) ls generalizing before rest
    with
  | case1 =>
      cases h
      obtain ⟨hskipped⟩ := hfalls
      have hall : Summands source := hsource ▸ hbefore.gap hskipped
      exact (FormulaError.Marks.unexpectedEnd hall hall.endsInPlus).pointsInto
        (by rw [List.append_nil]; rfl) (by simp) hsize
  | case2 u more =>
      cases h
      obtain _ | ⟨hskipped, hstands, _⟩ := hfalls
      refine (hstands.marks (hbefore.gap hskipped).ordinary).pointsInto hstands.span_eq ?_ hsize
      rw [hsource]
      simp only [List.append_assoc]
      rfl
  | case3 t more ht =>
      cases h
      obtain _ | ⟨hskipped, hstands, _⟩ := hfalls
      have hsums := hbefore.gap hskipped
      refine (FormulaError.Marks.invalidReference hsums hsums.endsInPlus hstands ht).pointsInto
        hstands.span_eq ?_ hsize
      rw [hsource]
      simp only [List.append_assoc]
      rfl
  | case4 t o ht u more =>
      cases h
      obtain _ | ⟨hskipped, hoperand, _ | ⟨hskipped', hstands, _⟩⟩ := hfalls
      -- The operand is behind the last plus sign, and the error where the next one is looked for.
      have hordinary := List.forall_mem_append.2 ⟨List.forall_mem_append.2
        ⟨(hbefore.gap hskipped).ordinary, fun c hc => .inr (.inr (hoperand.isWordChar ht c hc))⟩,
        fun c hc => .inl (hskipped' c hc)⟩
      refine (hstands.marks hordinary).pointsInto hstands.span_eq ?_ hsize
      rw [hsource]
      simp only [List.append_assoc]
      rfl
  | case5 t o ht text span more ih =>
      obtain _ | ⟨hskipped, hoperand, _ | ⟨hskipped', hplus, hmore⟩⟩ := hfalls
      obtain rfl : text = ['+'] := hplus.plus _ rfl rfl
      have hsums := (hbefore.gap hskipped).plus (hoperand.isWordChar ht) ht hskipped'
      refine ih ?_ hsums hmore h
      rw [hsource]
      simp only [List.append_assoc]
      rfl
  | case6 t o ht text span more => cases h
  | case7 t o ht => cases h

/-- A formula that does not read has an error that points into it. -/
theorem pointsInto_of_read (hsize : byteLength source < 2 ^ 32)
    (h : read source store = (.error e, store')) : e.PointsInto source := by
  have herror : (operandsOf source).2 = some e := operandsOf_eq_some_iff.2 (congrArg Prod.fst h)
  exact pointsInto_of_scan hsize rfl .nil (fallsInto_lexemes source) herror

end Places

end Formula

/-! ### Tables -/

/-- An error of a formula points into the formula. An error of a table names a cell whose piece,
trimmed, is the sign of a formula with a text behind it, and the error points into that text. -/
theorem error_points_into_source (source : List Char) :
    (byteLength source < 2 ^ 32 → ∀ store e after,
      Formula.read source store = (.error e, after) → e.PointsInto source) ∧
    ∀ store e after, Table.read source store = (.error e, after) →
      ∃ piece text, pieceAt? source e.cell = some piece ∧
        Text.trim piece.text = formulaMark :: text ∧
        (byteLength text < 2 ^ 32 → e.cause.PointsInto text) := by
  refine ⟨fun hsize store e after hread => Formula.pointsInto_of_read hsize hread,
    fun store e after hread => ?_⟩
  obtain ⟨earlier, text, later, hformulas, _, hfails⟩ := Table.exists_of_read_error hread
  have hmem : (e.cell, text) ∈ formulaTexts (slots source) := by simp [hformulas]
  obtain ⟨piece, hpiece, htext⟩ := mem_formulaTexts.1 hmem
  exact ⟨piece, text, hpiece, formulaText?_eq_some_iff.1 htext,
    fun hsize => Formula.pointsInto_of_read hsize (Prod.ext hfails rfl)⟩

theorem error_points_into_source_of_word :
    let source := "1| =A0 + 2x |é".toList
    let e : TableError := ⟨⟨0, 1⟩, .invalidReference "2x".toList (.ofRange 5 7)⟩
    (Table.read source .empty).1 = .error e ∧ e.cause.PointsInto "A0 + 2x".toList ∧
      (Formula.read "é+1 é".toList .empty).1 = .error (.unrecognized ⟨'é', .ofRange 0 2⟩) ∧
      FormulaError.PointsInto "é+1 é".toList (.unrecognized ⟨'é', .ofRange 0 2⟩) := by
  intro source e
  have htable : (Table.read source .empty).1 = .error e := by
    have hmatch : (match (Table.read source .empty).1 with
        | .error e' => decide (e' = e)
        | .ok _ => false) = true := by decide +kernel
    split at hmatch
    · next e' he =>
      rw [he, of_decide_eq_true hmatch]
    · cases hmatch
  have hformula : (Formula.read "é+1 é".toList .empty).1 =
      .error (.unrecognized ⟨'é', .ofRange 0 2⟩) := by decide +kernel
  obtain ⟨piece, text, hpiece, htext, hpoints⟩ :=
    (error_points_into_source source).2 .empty e _ (Prod.ext htable rfl)
  have hwritten : (pieceAt? source e.cell).map (Text.trim ·.text) =
      some (formulaMark :: "A0 + 2x".toList) := by decide +kernel
  rw [hpiece, Option.map_some, htext] at hwritten
  obtain rfl := (List.cons.inj (Option.some.inj hwritten)).2
  exact ⟨htable, hpoints (by decide +kernel), hformula,
    (error_points_into_source _).1 (by decide +kernel) _ _ _ (Prod.ext hformula rfl)⟩

end PipeSheet
