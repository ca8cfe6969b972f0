import PipeSheet.Proofs.Evaluation.Call
import PipeSheet.Proofs.Table.Reading
/-!
# PipeSheet.Proofs.Evaluation.Meaning

**What a source means.**

From a source to a grid nothing else matters than the operands of the formulas: a table can be
evaluated when its formulas refer to each other without a cycle, and to no text and no place
outside, and then the grid solves the table. Every formula shows the sum of what its operands are in
that same grid.

* `Formula.Operand.valueIn?`: what an operand is in a grid;
* `Table.SolvedBy`: the grid shows what each cell asks for;
* `evaluateTable_meaning`: when there is a grid, and that it solves the table.
-/

namespace PipeSheet

open Formula (Operand Store Tree)
open Sheet (Subject)
open Text (byteLength)

variable {source : List Char} {store before : Store} {t : Table} {g : Grid}

/-- A table that was just read is at rest. -/
theorem Table.ReadsAs.atRest (h : t.ReadsAs source store) : t.AtRest store (t.sheet store) :=
  ⟨h.rooted, .of_unevaluated fun hp => h.unevaluated hp⟩

/-- What an operand is: a literal itself, and a reference what its place holds. For a formula that
is what the grid shows. -/
def Formula.Operand.valueIn? (t : Table) (g : Grid) : Operand → Option Float
  | .number value => some value
  | .ref target =>
    match t.get? target with
    | some .empty => some 0
    | some (.number value) => some value
    | some (.formula _) => g.number? target
    | some (.text _ _) | none => none

/-- The grid has the shape of the table, texts and numbers where the table has them, and in the
place of a formula the sum of its operands, grouped to the right. -/
structure Table.SolvedBy (store : Store) (t : Table) (g : Grid) : Prop where
  rows_eq : g.rows = t.rows
  cols_eq : g.cols = t.cols
  empty : ∀ {p : Position}, t.get? p = some .empty → g.get? p = some .empty
  number : ∀ {p : Position} {value : Float}, t.get? p = some (.number value) →
    g.get? p = some (.number value)
  text : ∀ {p : Position} {span : Span} {content : List Char},
    t.get? p = some (.text span content) → g.get? p = some (.text content) ∧
      t.text? span = some content ∧
      ∃ piece, pieceAt? t.source p = some piece ∧ content = Text.trim piece.text
  formula : ∀ {p : Position} {f : FormulaCell}, t.get? p = some (.formula f) →
    ∃ tree values, store.tree? f.root = some tree ∧
      List.Forall₂ (fun o v => o.valueIn? t g = some v) tree.operands values ∧
      g.get? p = some (.number (rightSum values))

/-- In the grid of a sheet, an operand with a value is that value. -/
theorem Sheet.Shows.valueIn?_eq (h : (t.sheet store).Shows g) {o : Operand} {v : Float}
    (hv : (t.sheet store).HasValue (.tree o.tree) v) : o.valueIn? t g = some v := by
  cases o with
  | number value =>
      cases hv
      rfl
  | ref target =>
      have hat := t.at?_sheet store target
      cases hv with
      | reference hv =>
          unfold Formula.Operand.valueIn?
          dsimp only
          cases hp : t.get? target with
          | none => exact absurd hv (not_hasValue_of_outside (by rw [hat, hp]; rfl) v)
          | some cell =>
              rw [hp] at hat
              cases cell with
              | empty => exact congrArg some ((HasValue.empty hat).unique hv)
              | text span content => exact absurd hv (not_hasValue_of_text hat v)
              | number value => exact congrArg some ((HasValue.number hat).unique hv)
              | formula f =>
                  have hshown := (h.2.2 target _).2 (displays_of_formula hat hv)
                  show g.number? target = some v
                  rw [Grid.number?, hshown]

/-- The grid of a table's sheet solves the table. -/
theorem Table.ReadsAs.solvedBy (hreads : t.ReadsAs source store)
    (hsize : byteLength source < 2 ^ 32) (h : (t.sheet store).Shows g) : t.SolvedBy store g := by
  have hat := t.at?_sheet store
  have hshows : ∀ p value, (t.sheet store).Displays p value → g.get? p = some value :=
    fun p value => (h.2.2 p value).2
  refine ⟨h.1, h.2.1, fun {p} hp => ?_, fun {p v} hp => ?_, fun {p span content} hp => ?_,
    fun {p f} hp => ?_⟩
  · exact hshows p _ (Sheet.displays_of_empty (by rw [hat, hp]; rfl))
  · exact hshows p _ (Sheet.displays_of_number (by rw [hat, hp]; rfl))
  · obtain ⟨piece, hpiece, hcontent, hspan⟩ := hreads.text hsize hp
    have hshown := hshows p _ (Sheet.displays_of_text (by rw [hat, hp]; rfl))
    exact ⟨hshown, hspan, piece, hreads.source_eq ▸ hpiece, hcontent⟩
  · obtain ⟨piece, _, _, htext⟩ := hreads.formula hp
    have hformula := t.at?_sheet_of_formula hp htext.tree?_eq
    obtain ⟨v, hv⟩ := h.exists_hasValue ⟨_, hformula⟩
    obtain ⟨values, hvalues, hsum⟩ := (hv.tree_of_place hformula).exists_rightSum htext.ne_nil
    refine ⟨_, values, htext.tree?_eq, ?_, ?_⟩
    · rw [Tree.operands_sum htext.ne_nil]
      exact hvalues.imp fun o w hw => h.valueIn?_eq hw
    · rw [← hsum]
      exact hshows p _ (Sheet.displays_of_formula hformula hv)

/-- A table can be evaluated exactly when no formula needs itself, a text or a place outside. Then
the grid solves the table. -/
theorem evaluateTable_meaning (hsize : byteLength source < 2 ^ 32)
    (hread : Table.read source .empty = (.ok t, store)) (e : Evaluator) :
    ((∃ g, (e.evaluateTable store t).1 = .ok g) ↔
      (t.sheet store).Acyclic ∧
      (∀ p q span content, (t.sheet store).References p q →
        t.get? q ≠ some (.text span content)) ∧
      ∀ p q, (t.sheet store).References p q → t.Contains q) ∧
    ∀ g, (e.evaluateTable store t).1 = .ok g → t.SolvedBy store g := by
  have hreads := Table.readsAs_of_read hread (by simpa using Nat.le_of_lt hsize)
  have hat := t.at?_sheet store
  refine ⟨?_, fun g hg => ?_⟩
  · have htexts : (∀ p q content, (t.sheet store).References p q →
        (t.sheet store).at? q ≠ some (.text content)) ↔
        ∀ p q span content, (t.sheet store).References p q →
          t.get? q ≠ some (.text span content) := by
      constructor
      · intro h p q span content hpq hq
        exact h p q content hpq (by rw [hat, hq]; rfl)
      · intro h p q content hpq hq
        rw [hat] at hq
        obtain ⟨cell, hcell, hcontent⟩ := Option.map_eq_some_iff.1 hq
        cases cell with
        | text span content' => exact h p q span content' hpq hcell
        | _ => cases hcontent
    have hinside : (∀ p q, (t.sheet store).References p q → (t.sheet store).at? q ≠ none) ↔
        ∀ p q, (t.sheet store).References p q → t.Contains q := by
      refine forall_congr' fun p => forall_congr' fun q => imp_congr_right fun hpq => ?_
      rw [hat, Ne, Option.map_eq_none_iff]
      constructor
      · intro hq
        by_cases hcontains : t.Contains q
        · exact hcontains
        · exact absurd (t.get?_of_not_contains hcontains) hq
      · intro hcontains hq
        rw [t.get?_of_contains hcontains,
          Array.getElem?_eq_getElem (Table.index_lt hcontains)] at hq
        cases hq
    rw [exists_evaluateTable_eq_ok_iff hreads.atRest, Sheet.solvable_iff, htexts,
      hinside]
  · exact hreads.solvedBy hsize ((evaluateTable_eq_ok_iff hreads.atRest e g).1 hg)

theorem evaluateTable_meaning_of_sum :
    ∃ t store g, Table.read "=B0+1|2".toList .empty = (.ok t, store) ∧
      (({} : Evaluator).evaluateTable store t).1 = .ok g ∧ t.SolvedBy store g := by
  have hcheck : Table.readsTo "=B0+1|2".toList (fun t store =>
      (({} : Evaluator).evaluateTable store t).1.isOk) = true := by decide +kernel
  obtain ⟨t, store, hread, hok⟩ := Table.exists_of_readsTo hcheck
  cases hg : (({} : Evaluator).evaluateTable store t).1 with
  | error halt => simp [hg, Except.isOk, Except.toBool] at hok
  | ok g => exact ⟨t, store, g, hread, hg, (evaluateTable_meaning (by decide) hread {}).2 g hg⟩

end PipeSheet
