import PipeSheet.Proofs.Sheet.Basic
/-!
# PipeSheet.Proofs.Table.Relabel

**What may be exchanged in a table without a difference to its evaluation.**

The root of a formula is a name for its tree, and the span of a text is a place in the source. With
other names and other places a cell keeps its content, its state and its value. So a table that was
relabelled has the same formulas in the same states, and it makes no difference whether a state is
set before or after that.

* `Relabelling`, `Table.relabel`: other names, other places and another source;
* `Table.get?_relabel`, `Table.setFormula_relabel`, `Table.toGrid_relabel`: what becomes of the
  operations.
-/

namespace PipeSheet

open Formula (NodeId)

/-- Other names for the roots of formulas, other spans for the texts, and another source. -/
structure Relabelling where
  name : NodeId → NodeId := id
  place : Span → Span := id
  source : List Char → List Char := id

variable {ρ : Relabelling} {t : Table} {p : Position} {f : FormulaCell}

/-- The cell with its labels exchanged. -/
def Cell.relabel (ρ : Relabelling) : Cell → Cell
  | .text span content => .text (ρ.place span) content
  | .formula f => .formula { f with root := ρ.name f.root }
  | cell => cell

/-- The table with the labels of all cells exchanged. -/
def Table.relabel (ρ : Relabelling) (t : Table) : Table where
  source := ρ.source t.source
  rows := t.rows
  cols := t.cols
  cells := t.cells.map (Cell.relabel ρ)
  size_cells := by rw [Array.size_map, t.size_cells]

theorem Cell.withState_relabel (status : Status) (value : Float) (cell : Cell) :
    (cell.relabel ρ).withState status value = (cell.withState status value).relabel ρ := by
  cases cell <;> rfl

theorem Cell.value_relabel (cell : Cell) : (cell.relabel ρ).value = cell.value := by
  cases cell with
  | formula f =>
      obtain ⟨root, _ | _ | _, value⟩ := f
      · rfl
      · rfl
      · rfl
  | _ => rfl

namespace Table

theorem get?_relabel (ρ : Relabelling) (t : Table) (p : Position) :
    (t.relabel ρ).get? p = (t.get? p).map (Cell.relabel ρ) := by
  by_cases hp : t.Contains p
  · have hp' : (t.relabel ρ).Contains p := hp
    rw [get?_of_contains hp', get?_of_contains hp]
    exact Array.getElem?_map
  · have hp' : ¬ (t.relabel ρ).Contains p := hp
    rw [get?_of_not_contains hp', get?_of_not_contains hp]
    rfl

theorem get?_relabel_formula (h : t.get? p = some (.formula f)) :
    (t.relabel ρ).get? p = some (.formula { f with root := ρ.name f.root }) := by
  rw [get?_relabel, h]
  rfl

theorem exists_formula_of_relabel (h : (t.relabel ρ).get? p = some (.formula f)) :
    ∃ f', t.get? p = some (.formula f') ∧ f = { f' with root := ρ.name f'.root } := by
  rw [get?_relabel] at h
  obtain ⟨cell, hcell, hformula⟩ := Option.map_eq_some_iff.1 h
  cases cell with
  | formula f' =>
      cases hformula
      exact ⟨f', hcell, rfl⟩
  | _ => cases hformula

theorem setFormula_relabel (p : Position) (status : Status) (value : Float) :
    (t.relabel ρ).setFormula p status value = (t.setFormula p status value).relabel ρ := by
  have hcells : (t.cells.map (Cell.relabel ρ)).modify (t.index p) (Cell.withState status value) =
      (t.cells.modify (t.index p) (Cell.withState status value)).map (Cell.relabel ρ) := by
    refine Array.ext_getElem? fun i => ?_
    rw [Array.getElem?_modify, Array.getElem?_map, Array.getElem?_map, Array.getElem?_modify]
    split
    · rw [Option.map_map, Option.map_map]
      exact congrArg (Option.map · _) (funext (Cell.withState_relabel status value))
    · rfl
  unfold setFormula relabel
  congr 1

theorem toGrid_relabel (ρ : Relabelling) (t : Table) : (t.relabel ρ).toGrid = t.toGrid := by
  have hvalues : (t.cells.map (Cell.relabel ρ)).map Cell.value = t.cells.map Cell.value := by
    rw [Array.map_map]
    exact congrArg (t.cells.map ·) (funext Cell.value_relabel)
  unfold toGrid relabel
  congr 1

end Table

end PipeSheet
