import PipeSheet.Proofs.Evaluation.Relabel
import PipeSheet.Proofs.Safety.Command
import PipeSheet.Proofs.Table.Padding
import PipeSheet.Proofs.Text.Lines
/-!
# PipeSheet.Proofs.Safety.Padding

**Blanks around the pieces of a sheet make no difference, and neither do carriage returns.**

Padding moves every text of the source to another place, so the tables of a padded source and of the
plain one have different spans. They are the same table when these are forgotten, and the evaluation
does not look at them. A machine does: it takes the texts out of the source by their spans, when it
shows them and when it reports them. Since no span is wrong in either source, it finds the same
texts.

* `written`, `Writable`: rows of pieces as a source;
* `evaluateSource_congr`: sources with the same trimmed pieces;
* `evaluateSource_padding`: the law.
-/

namespace PipeSheet

open Formula (Store)
open Text (byteLength)

variable {source source' : List Char} {rows rows' : List (List (List Char))}

/-! ### Rows as a source -/

/-- Some rows of pieces as a source: bars between the pieces of a row, and an ending behind it. -/
def written (ending : List Char) (rows : List (List (List Char))) : List Char :=
  rows.flatMap fun row => [cellSeparator].intercalate row ++ ending

/-- Every row has a piece, and no piece has a bar or a line end in it. -/
def Writable (rows : List (List (List Char))) : Prop :=
  ∀ row ∈ rows, row ≠ [] ∧ ∀ piece ∈ row, cellSeparator ∉ piece ∧ '\n' ∉ piece

instance (rows : List (List (List Char))) : Decidable (Writable rows) :=
  inferInstanceAs (Decidable (∀ row ∈ rows, _))

theorem trimmedRows_written (h : Writable rows) :
    trimmedRows (written ['\n'] rows) = rows.map (List.map Text.trim) := by
  have hlines : ∀ line ∈ rows.map [cellSeparator].intercalate, '\n' ∉ line := by
    intro line hline hmem
    obtain ⟨row, hrow, rfl⟩ := List.mem_map.1 hline
    rcases Text.mem_intercalate hmem with h' | ⟨piece, hpiece, h'⟩
    · exact absurd h' (by decide)
    · exact ((h row hrow).2 piece hpiece).2 h'
  have hwritten : written ['\n'] rows =
      (rows.map [cellSeparator].intercalate).flatMap fun line => line ++ ['\n'] := by
    rw [List.flatMap_map]
    rfl
  rw [trimmedRows, hwritten, Text.lines_flatMap hlines, List.map_map]
  refine List.map_congr_left fun row hrow => congrArg (List.map Text.trim) ?_
  exact Text.pieces_intercalate (h row hrow).1 fun piece hpiece => ((h row hrow).2 piece hpiece).1

/-- A carriage return at the end of a line is a blank at the end of its last piece. -/
theorem exists_rows_of_carriageReturns (h : Writable rows) :
    ∃ rows', Writable rows' ∧ written ['\r', '\n'] rows = written ['\n'] rows' ∧
      rows'.map (List.map Text.trim) = rows.map (List.map Text.trim) := by
  induction rows with
  | nil => exact ⟨[], h, rfl, rfl⟩
  | cons row rest ih =>
      obtain ⟨⟨hne, hpieces⟩, hrest⟩ := List.forall_mem_cons.1 h
      obtain ⟨rest', hrest', hwritten, htrim⟩ := ih hrest
      obtain ⟨front, last, rfl⟩ := (List.eq_nil_or_concat' row).resolve_left hne
      have hblank : ∀ c ∈ ['\r'], Text.isBlank c := List.all_eq_true.1 (by decide)
      have hlast := hpieces last (by simp)
      refine ⟨(front ++ [last ++ ['\r']]) :: rest', List.forall_mem_cons.2 ⟨⟨by simp, ?_⟩, hrest'⟩,
        ?_, ?_⟩
      · intro piece hpiece
        rcases List.mem_append.1 hpiece with hfront | hend
        · exact hpieces piece (List.mem_append_left _ hfront)
        · obtain rfl := List.mem_singleton.1 hend
          simpa [cellSeparator] using hlast
      · unfold written at hwritten ⊢
        rw [List.flatMap_cons, List.flatMap_cons, hwritten, Text.intercalate_append_cons,
          Text.intercalate_append_cons]
        simp
      · rw [List.map_cons, List.map_cons, htrim, List.map_append, List.map_append,
          List.map_singleton, List.map_singleton, Text.trim_append_of_blank hblank]

/-! ### Evaluation -/

/-- Tables that are the same without their places are evaluated in the same way. -/
theorem evaluateTable_congr {store : Store} {t t' : Table}
    (h : t.relabel unplaced = t'.relabel unplaced) (hroot : t.Rooted store)
    (hroot' : t'.Rooted store) (e : Evaluator) :
    (e.evaluateTable store t).1 = (e.evaluateTable store t').1 ∧
      (e.evaluateTable store t).2.1 = (e.evaluateTable store t').2.1 := by
  have hnames : Store.Renames unplaced.name store store := fun _ _ htree => htree
  have hcall := evaluateTable_relabel hnames hroot e
  have hcall' := evaluateTable_relabel hnames hroot' e
  rw [h, hcall'] at hcall
  obtain ⟨hresult, hrest⟩ := Prod.mk.inj hcall
  exact ⟨hresult.symm, (Prod.mk.inj hrest).1.symm⟩

/-- Sources with the same trimmed pieces have the same outcome. -/
theorem evaluateSource_congr (h : trimmedRows source = trimmedRows source')
    (hsize : byteLength source < 2 ^ 32) (hsize' : byteLength source' < 2 ^ 32) :
    evaluateSource source = evaluateSource source' := by
  have hread := Table.read_congr h .empty
  rw [evaluateSource, evaluateSource]
  rcases hr : Table.read source .empty with ⟨e | t, store⟩ <;>
    rcases hr' : Table.read source' .empty with ⟨e' | t', store'⟩ <;> rw [hr, hr'] at hread
  -- Both fail, one of them does, or both are read.
  · cases hread
    rfl
  · cases hread
  · cases hread
  · obtain ⟨htable, rfl⟩ := Prod.mk.inj hread
    have hroot : t.Rooted store := (Table.readsAs_of_read hr (by simpa using hsize.le)).rooted
    have hroot' : t'.Rooted store := (Table.readsAs_of_read hr' (by simpa using hsize'.le)).rooted
    obtain ⟨hresult, hevaluator⟩ := evaluateTable_congr (Except.ok.inj htable) hroot hroot' {}
    dsimp only
    generalize ({} : Evaluator).evaluateTable store t = answer at hresult hevaluator ⊢
    generalize ({} : Evaluator).evaluateTable store t' = answer' at hresult hevaluator ⊢
    obtain ⟨result, evaluator, after⟩ := answer
    obtain ⟨result', evaluator', after'⟩ := answer'
    obtain rfl : result = result' := hresult
    obtain rfl : evaluator = evaluator' := hevaluator
    cases result with
    | error halt => rfl
    | ok grid => rfl

theorem evaluateSource_written (h : Writable rows) (h' : Writable rows')
    (hsame : rows.map (List.map Text.trim) = rows'.map (List.map Text.trim))
    (hsize : byteLength (written ['\n'] rows) < 2 ^ 32)
    (hsize' : byteLength (written ['\n'] rows') < 2 ^ 32) :
    evaluateSource (written ['\n'] rows) = evaluateSource (written ['\n'] rows') := by
  refine evaluateSource_congr ?_ hsize hsize'
  rw [trimmedRows_written h, trimmedRows_written h', hsame]

/-- Two lists of rows of the same shape, in which corresponding pieces are the same when they are
trimmed, have the same outcome when they are written: the same grid and the same counts, or the same
error with all that it says. It is also the outcome on a machine, where the texts of the grid and of
the errors are taken out of the source by their spans, and that of the rows written with carriage
returns. -/
theorem evaluateSource_padding (hrows : Writable rows) (hrows' : Writable rows')
    (hsame : List.Forall₂ (List.Forall₂ fun piece piece' => Text.trim piece = Text.trim piece')
      rows rows')
    (hsize : byteLength (written ['\n'] rows) < 2 ^ 32)
    (hsize' : byteLength (written ['\n'] rows') < 2 ^ 32) :
    ∃ outcome, evaluateSource (written ['\n'] rows) = outcome ∧
      evaluateSource (written ['\n'] rows') = outcome ∧
      Checked.evaluateAll (written ['\n'] rows) = .ok outcome ∧
      Checked.evaluateAll (written ['\n'] rows') = .ok outcome ∧
      (byteLength (written ['\r', '\n'] rows) < 2 ^ 32 →
        evaluateSource (written ['\r', '\n'] rows) = outcome ∧
        Checked.evaluateAll (written ['\r', '\n'] rows) = .ok outcome) := by
  have htrim : rows.map (List.map Text.trim) = rows'.map (List.map Text.trim) := by
    rw [← List.forall₂_eq_eq_eq, List.forall₂_map_left_iff, List.forall₂_map_right_iff]
    refine hsame.imp fun row row' hrow => ?_
    rw [← List.forall₂_eq_eq_eq, List.forall₂_map_left_iff, List.forall₂_map_right_iff]
    exact hrow
  have hpadded := evaluateSource_written hrows hrows' htrim hsize hsize'
  refine ⟨_, rfl, hpadded.symm, Checked.evaluateAll_eq hsize, ?_, fun hreturns => ?_⟩
  · rw [Checked.evaluateAll_eq hsize', hpadded]
  · obtain ⟨rows₁, hrows₁, hwritten, htrim₁⟩ := exists_rows_of_carriageReturns hrows
    rw [hwritten] at hreturns ⊢
    have heq := evaluateSource_written hrows₁ hrows htrim₁ hreturns hsize
    exact ⟨heq, by rw [Checked.evaluateAll_eq hreturns, heq]⟩

theorem evaluateSource_padding_of_sum :
    let rows := ["x", " =A1+ 1"].map String.toList :: [["2", ""].map String.toList]
    let rows' := ["\t x", "=A1+ 1\u00a0 "].map String.toList :: [[" 2 ", " "].map String.toList]
    written ['\n'] rows ≠ written ['\n'] rows' ∧
      Checked.evaluateAll (written ['\n'] rows) = Checked.evaluateAll (written ['\n'] rows') ∧
      Checked.evaluateAll (written ['\r', '\n'] rows) = Checked.evaluateAll (written ['\n'] rows) ∧
      ((evaluateSource (written ['\n'] rows')).toOption.bind fun result =>
        result.1.get? ⟨0, 0⟩) = some (.text ['x']) := by
  intro rows rows'
  have hsame : List.Forall₂ (List.Forall₂ fun piece piece' => Text.trim piece = Text.trim piece')
      rows rows' :=
    .cons (.cons (by decide) (.cons (by decide) .nil))
      (.cons (.cons (by decide) (.cons (by decide) .nil)) .nil)
  obtain ⟨outcome, _, _, hplain, hpadded, hreturns⟩ := evaluateSource_padding
    (show Writable rows by decide) (show Writable rows' by decide) hsame (by decide +kernel)
    (by decide +kernel)
  exact ⟨by decide +kernel, hplain.trans hpadded.symm,
    (hreturns (by decide +kernel)).2.trans hplain.symm, by decide +kernel⟩

end PipeSheet
