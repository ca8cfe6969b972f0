import PipeSheet.Proofs.Evaluation.Meaning
import PipeSheet.Proofs.Text.Lines
/-!
# PipeSheet.Proofs.Evaluation.Appending

**Rows that are added at the end change nothing above them.**

A longer line makes the table wider, so the cells move to other indices and shorter rows get more
empty places. But a place is named by its row and column, and the row of a line says what it said
before. Formulas refer to places. So a derivation of a value in the old table is one in the new
table as well, whatever the new rows hold: they may refer to the old ones, fail or form a cycle, and
no formula of the old ones asks for them.

* `Sheet.Extends`: one sheet has all places of another one;
* `Table.ReadsAs.extends_append`: the sheet of a longer source extends that of a shorter one;
* `evaluateSource_append`: values and grids.
-/

namespace PipeSheet

open Formula (Store)
open Sheet (Subject)
open Text (Piece byteLength)

/-! ### Sheets -/

namespace Sheet

variable {s s' : Sheet}

/-- Every place of one sheet is in the other one, and says the same there. -/
def Extends (s s' : Sheet) : Prop :=
  ∀ p c, s.at? p = some c → s'.at? p = some c

/-- What has a value keeps it. -/
theorem HasValue.extends {x : Subject} {v : Float} (h : s.HasValue x v) (hext : s.Extends s') :
    s'.HasValue x v := by
  induction h with
  | empty hp => exact .empty (hext _ _ hp)
  | number hp => exact .number (hext _ _ hp)
  | formula hp _ ih => exact .formula (hext _ _ hp) ih
  | literal => exact .literal
  | reference _ ih => exact .reference ih
  | plus _ _ iha ihb => exact .plus iha ihb

/-- What is displayed stays. -/
theorem Displays.extends {p : Position} {value : Value} (h : s.Displays p value)
    (hext : s.Extends s') : s'.Displays p value := by
  unfold Displays at h ⊢
  cases hp : s.at? p with
  | none => simp [hp] at h
  | some c =>
      rw [hp] at h
      rw [hext p c hp]
      cases c with
      | empty => exact h
      | text content => exact h
      | number value =>
          obtain ⟨v, hv, hvalue⟩ := h
          exact ⟨v, hv.extends hext, hvalue⟩
      | formula tree =>
          obtain ⟨v, hv, hvalue⟩ := h
          exact ⟨v, hv.extends hext, hvalue⟩

end Sheet

/-! ### Sources -/

variable {source added : List Char} {store store' : Store} {t t' : Table} {p : Position}

/-- The lines above are split as before, and stand where they stood. -/
theorem pieceRows_append (hend : source = [] ∨ source.getLast? = some '\n') (added : List Char) :
    pieceRows source <+: pieceRows (source ++ added) := by
  rw [pieceRows, pieceRows, Text.lines_append hend]
  exact (Text.locate_append 0 _ _).map _

/-- A piece determines what a cell says, though not which nodes it says it with. -/
theorem Written.content_eq {piece? : Option Piece} {cell cell' : Cell}
    (h : Written store piece? cell) (h' : Written store' piece? cell') :
    cell.content store = cell'.content store' := by
  cases h with
  | empty => cases h'; rfl
  | formula hmark hreads =>
      cases h' with
      | formula _ hreads' => rw [Cell.content, Cell.content, hreads.tree?_eq, hreads'.tree?_eq]
      | number hmark' | text hmark' => exact absurd hmark hmark'
  | number hmark hvalue =>
      cases h' with
      | formula hmark' => exact absurd hmark' hmark
      | number _ hvalue' => cases hvalue.symm.trans hvalue'; rfl
      | text _ hvalue' => cases hvalue.symm.trans hvalue'
  | text hmark hvalue =>
      cases h' with
      | formula hmark' => exact absurd hmark' hmark
      | number _ hvalue' => cases hvalue.symm.trans hvalue'
      | text => rfl

/-- A table with rows added has the places of the table, with what they say. -/
theorem Table.ReadsAs.extends_append (h : t.ReadsAs source store)
    (h' : t'.ReadsAs (source ++ added) store')
    (hend : source = [] ∨ source.getLast? = some '\n') :
    (t.sheet store).Extends (t'.sheet store') := by
  intro p c hc
  obtain ⟨cell, hp, rfl⟩ := Option.map_eq_some_iff.1 hc
  obtain ⟨more, hrows⟩ := pieceRows_append hend added
  have hin : p.row < (pieceRows source).length ∧ p.col < width (pieceRows source) := by
    rw [← h.rows_eq, ← h.cols_eq]
    exact contains_of_get? hp
  have hwidth : width (pieceRows source) ≤ width (pieceRows (source ++ added)) :=
    width_le fun row hrow => length_le_width (hrows ▸ List.mem_append_left more hrow)
  have hin' : t'.Contains p := by
    rw [Table.Contains, h'.rows_eq, h'.cols_eq, ← hrows, List.length_append, hrows]
    omega
  obtain ⟨cell', hp'⟩ := exists_get?_of_contains hin'
  have hpiece : pieceAt? (source ++ added) p = pieceAt? source p := by
    rw [pieceAt?, pieceAt?, ← hrows, List.getElem?_append_left hin.1]
  have hwritten' := h'.written hp'
  rw [hpiece] at hwritten'
  rw [at?_sheet, hp', (h.written hp).content_eq hwritten']
  rfl

/-! ### The law -/

/-- If a source ends with a line end and is evaluated, then each of its formulas has the value in
its grid in every longer source that reads as well, whatever was added. If the longer source is
evaluated too, its grid shows the same in all places of the grid. -/
theorem evaluateSource_append {g : Grid} {stats : Stats}
    (hend : source = [] ∨ source.getLast? = some '\n')
    (hsize : byteLength (source ++ added) < 2 ^ 32)
    (hsource : evaluateSource source = .ok (g, stats))
    (hread' : Table.read (source ++ added) .empty = (.ok t', store')) :
    (∃ t store, Table.read source .empty = (.ok t, store) ∧
      ∀ p f, t.get? p = some (.formula f) → ∃ v, g.get? p = some (.number v) ∧
        ∀ e : Evaluator, (e.evaluateCell store' t' p).1 = .ok v) ∧
    ∀ g' stats', evaluateSource (source ++ added) = .ok (g', stats') →
      ∀ p, p.row < g.rows → p.col < g.cols →
        ∃ value, g.get? p = some value ∧ g'.get? p = some value := by
  obtain ⟨t, store, e, t₁, hread, hcall, _⟩ := evaluateSource_eq_ok_iff.1 hsource
  have hroom : byteLength source ≤ 2 ^ 32 := by
    rw [Text.byteLength_append] at hsize
    omega
  have hreads := Table.readsAs_of_read hread (by simpa using hroom)
  have hreads' := Table.readsAs_of_read hread' (by simpa using Nat.le_of_lt hsize)
  have hext := hreads.extends_append hreads' hend
  have hshows : (t.sheet store).Shows g :=
    (evaluateTable_eq_ok_iff hreads.atRest {} g).1 (by rw [hcall])
  refine ⟨⟨t, store, hread, fun p f hp => ?_⟩, fun g' stats' hsource' p hrow hcol => ?_⟩
  · obtain ⟨tree, htree⟩ := hreads.rooted hp
    have hformula := t.at?_sheet_of_formula hp htree
    obtain ⟨v, hv⟩ := hshows.exists_hasValue ⟨tree, hformula⟩
    exact ⟨v, (hshows.2.2 p _).2 (Sheet.displays_of_formula hformula hv),
      fun e => (evaluateCell_eq_ok_iff hreads'.atRest e p v).2 (hv.extends hext)⟩
  · obtain ⟨t₂, store₂, e', t₃, hread₂, hcall', _⟩ := evaluateSource_eq_ok_iff.1 hsource'
    cases hread'.symm.trans hread₂
    have hshows' : (t'.sheet store').Shows g' :=
      (evaluateTable_eq_ok_iff hreads'.atRest {} g').1 (by rw [hcall'])
    obtain ⟨value, hvalue⟩ := Grid.exists_get? hrow hcol
    have hdisplays := (hshows.2.2 p value).1 hvalue
    exact ⟨value, hvalue, (hshows'.2.2 p value).2 (hdisplays.extends hext)⟩

/-- The added row makes the table wider. One of its formulas asks for the row above, the next one
for itself, and the last one for a text. -/
theorem evaluateSource_append_of_cycle :
    ∃ g stats t' store', evaluateSource "1|=A0+1\n".toList = .ok (g, stats) ∧
      Table.read ("1|=A0+1\n".toList ++ "=B0|=B1|=D1|x".toList) .empty = (.ok t', store') ∧
      t'.cols = 4 ∧ g.get? ⟨0, 1⟩ = some (.number 2) ∧
      ∀ e : Evaluator, (e.evaluateCell store' t' ⟨0, 1⟩).1 = .ok 2 := by
  have hreads : Table.readsTo ("1|=A0+1\n".toList ++ "=B0|=B1|=D1|x".toList)
      (fun t _ => t.cols = 4) = true := by decide +kernel
  obtain ⟨t', store', hread', hcols⟩ := Table.exists_of_readsTo hreads
  have hshown : ((evaluateSource "1|=A0+1\n".toList).toOption.bind fun r => r.1.get? ⟨0, 1⟩) =
      some (.number 2) := by decide +kernel
  have hformula : Table.readsTo "1|=A0+1\n".toList
      (fun t _ => ((t.get? ⟨0, 1⟩).getD .empty).isFormula) = true := by decide +kernel
  obtain ⟨t, store, hread, hcell⟩ := Table.exists_of_readsTo hformula
  cases hsource : evaluateSource "1|=A0+1\n".toList with
  | error e =>
      rw [hsource] at hshown
      cases hshown
  | ok r =>
      obtain ⟨g, stats⟩ := r
      rw [hsource] at hshown
      have hg : g.get? ⟨0, 1⟩ = some (.number 2) := hshown
      obtain ⟨⟨t₁, store₁, hread₁, hformulas⟩, _⟩ :=
        evaluateSource_append (.inr (by decide)) (by decide +kernel) hsource hread'
      cases hread.symm.trans hread₁
      cases hp : t.get? ⟨0, 1⟩ with
      | none => simp [hp, Cell.isFormula] at hcell
      | some cell =>
          cases cell with
          | formula f =>
              obtain ⟨v, hv, hvalue⟩ := hformulas ⟨0, 1⟩ f hp
              cases hg.symm.trans hv
              exact ⟨g, stats, t', store', rfl, hread', of_decide_eq_true hcols, hg, hvalue⟩
          | empty | text span content | number v => simp [hp, Cell.isFormula] at hcell

end PipeSheet
