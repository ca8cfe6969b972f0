import Mathlib.Data.List.Forall2
import PipeSheet.Proofs.Sheet.Basic
/-!
# PipeSheet.Proofs.Sheet.Grid

**The grid of a sheet shows the values of its places, and there is only one such grid.**

* `Sheet.Displays`, `Sheet.Shows`: what a place shows, and the grid of a sheet;
* `Sheet.Shows.unique`: a grid is determined by what it shows;
* `rightSum`: the value of a sum by the values of its operands.
-/

namespace PipeSheet

open Formula (Operand Tree)

/-! ### Places and their indices -/

namespace Grid

/-- A place inside a grid shows something. -/
theorem exists_get? {g : Grid} {p : Position} (hr : p.row < g.rows) (hc : p.col < g.cols) :
    ∃ value, g.get? p = some value := by
  have hlt : p.row * g.cols + p.col < g.values.size := by
    rw [g.size_values]
    exact Position.index_lt hr hc
  exact ⟨g.values[p.row * g.cols + p.col], by
    rw [get?, if_pos ⟨hr, hc⟩, Array.getElem?_eq_getElem hlt]⟩

/-- Every value of a grid stands at a place. -/
theorem get?_of_lt {g : Grid} {i : Nat} (hi : i < g.values.size) :
    g.get? ⟨i / g.cols, i % g.cols⟩ = some g.values[i] := by
  obtain ⟨hrow, hcol, hindex⟩ := Position.inside_of_index_lt (g.size_values ▸ hi)
  rw [get?, if_pos ⟨hrow, hcol⟩]
  simp only [hindex, Array.getElem?_eq_getElem hi]

/-- Grids of one shape that show the same at every place are equal. -/
theorem ext_get? {g g' : Grid} (hrows : g.rows = g'.rows) (hcols : g.cols = g'.cols)
    (h : ∀ p, g.get? p = g'.get? p) : g = g' := by
  have hsize : g.values.size = g'.values.size := by
    rw [g.size_values, g'.size_values, hrows, hcols]
  have hvalues : g.values = g'.values := by
    refine Array.ext hsize fun i hi hi' => ?_
    have hp := h ⟨i / g.cols, i % g.cols⟩
    rw [get?_of_lt hi, hcols, get?_of_lt hi'] at hp
    exact Option.some.inj hp
  obtain ⟨rows, cols, values, _⟩ := g
  obtain ⟨rows', cols', values', _⟩ := g'
  obtain rfl : rows = rows' := hrows
  obtain rfl : cols = cols' := hcols
  obtain rfl : values = values' := hvalues
  rfl

end Grid

/-- The grid of a table shows what its cells show. -/
theorem Table.get?_toGrid (t : Table) (p : Position) :
    t.toGrid.get? p = (t.get? p).map Cell.value := by
  unfold Grid.get?
  by_cases hp : p.row < t.toGrid.rows ∧ p.col < t.toGrid.cols
  · rw [if_pos hp, t.get?_of_contains hp]
    exact Array.getElem?_map
  · rw [if_neg hp, t.get?_of_not_contains hp]
    rfl

/-! ### The grid of a sheet -/

namespace Sheet

variable {s : Sheet} {g g' : Grid}

/-- What a place shows: a text itself, and a number or a formula its value. -/
def Displays (s : Sheet) (p : Position) (value : Value) : Prop :=
  match s.at? p with
  | none => False
  | some .empty => value = .empty
  | some (.text content) => value = .text content
  | some _ => ∃ v, s.HasValue (.place p) v ∧ value = .number v

/-- The grid shows what each place of the sheet shows. -/
def Shows (s : Sheet) (g : Grid) : Prop :=
  g.rows = s.rows ∧ g.cols = s.cols ∧ ∀ p value, g.get? p = some value ↔ s.Displays p value

section Displays

variable {p : Position} {v : Float}

theorem displays_of_empty (h : s.at? p = some .empty) : s.Displays p .empty := by
  unfold Displays
  rw [h]

theorem displays_of_text {content : List Char} (h : s.at? p = some (.text content)) :
    s.Displays p (.text content) := by
  unfold Displays
  rw [h]

theorem displays_of_number (h : s.at? p = some (.number v)) : s.Displays p (.number v) := by
  unfold Displays
  rw [h]
  exact ⟨v, .number h, rfl⟩

theorem displays_of_formula {tree : Tree} (h : s.at? p = some (.formula tree))
    (hv : s.HasValue (.place p) v) : s.Displays p (.number v) := by
  unfold Displays
  rw [h]
  exact ⟨v, hv, rfl⟩

end Displays

theorem Displays.unique {p : Position} {a b : Value} (ha : s.Displays p a) (hb : s.Displays p b) :
    a = b := by
  have hnumber : (∃ v, s.HasValue (.place p) v ∧ a = .number v) →
      (∃ v, s.HasValue (.place p) v ∧ b = .number v) → a = b := by
    rintro ⟨v, hv, rfl⟩ ⟨w, hw, rfl⟩
    rw [hv.unique hw]
  unfold Displays at ha hb
  cases hc : s.at? p with
  | none => simp [hc] at ha
  | some c =>
      rw [hc] at ha hb
      cases c with
      | empty => exact Eq.trans ha (Eq.symm hb)
      | text content => exact Eq.trans ha (Eq.symm hb)
      | number value => exact hnumber ha hb
      | formula tree => exact hnumber ha hb

/-- A sheet has one grid at most. -/
theorem Shows.unique (h : s.Shows g) (h' : s.Shows g') : g = g' := by
  refine Grid.ext_get? (h.1.trans h'.1.symm) (h.2.1.trans h'.2.1.symm) fun p => ?_
  refine Option.ext fun value => ?_
  rw [h.2.2 p value, h'.2.2 p value]

/-- A sheet that has a grid has a value for each of its formulas. -/
theorem Shows.exists_hasValue (h : s.Shows g) {p : Position} (hp : s.IsFormula p) :
    ∃ v, s.HasValue (.place p) v := by
  obtain ⟨tree, hp⟩ := hp
  obtain ⟨hr, hc⟩ := s.inside_of_at? hp
  obtain ⟨value, hvalue⟩ := Grid.exists_get? (g := g) (h.1 ▸ hr) (h.2.1 ▸ hc)
  have hdisplays := (h.2.2 p value).1 hvalue
  simp only [Displays, hp] at hdisplays
  obtain ⟨v, hv, _⟩ := hdisplays
  exact ⟨v, hv⟩

end Sheet

/-! ### Sums of operands -/

/-- The sum of some numbers, grouped to the right. It takes at least one number. -/
def rightSum : List Float → Float
  | [] => 0
  | [v] => v
  | v :: rest => v + rightSum rest

theorem rightSum_cons (v : Float) {rest : List Float} (h : rest ≠ []) :
    rightSum (v :: rest) = v + rightSum rest := by
  cases rest with
  | nil => exact absurd rfl h
  | cons w rest => rfl

example : rightSum [1, 2, 3] = 1 + (2 + 3) := rfl

/-- A sum of operands has the sum of their values. -/
theorem Sheet.HasValue.exists_rightSum {s : Sheet} {operands : List Operand} (hne : operands ≠ [])
    {v : Float} (h : s.HasValue (.tree (Tree.sum operands)) v) :
    ∃ values, List.Forall₂ (fun o w => s.HasValue (.tree o.tree) w) operands values ∧
      v = rightSum values := by
  induction operands generalizing v with
  | nil => exact absurd rfl hne
  | cons operand rest ih =>
      cases rest with
      | nil => exact ⟨[v], .cons h .nil, rfl⟩
      | cons next rest =>
          rw [Tree.sum_cons operand (by simp)] at h
          cases h with
          | plus ha hb =>
              obtain ⟨values, hvalues, rfl⟩ := ih (by simp) hb
              refine ⟨_ :: values, .cons ha hvalues, ?_⟩
              rw [rightSum_cons _ (by rintro rfl; cases hvalues)]

end PipeSheet
