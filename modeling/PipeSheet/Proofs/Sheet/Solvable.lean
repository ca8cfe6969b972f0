import Mathlib.Data.Fintype.Card
import Mathlib.Data.Set.Finite.List
import PipeSheet.Proofs.Sheet.Basic
import PipeSheet.Proofs.Sheet.Naive
/-!
# PipeSheet.Proofs.Sheet.Solvable

**All formulas of a sheet have values when none is on a cycle and none needs what has no value.**

The places are finitely many, so without cycles the references are well-founded and every formula is
reached from below.

* `Sheet.Acyclic`: no formula leads back to itself;
* `Sheet.Solvable`, `Sheet.solvable_iff`: every formula has a value, and when.
-/

namespace PipeSheet

open Formula (Operand Store Tree)
open Relation (ReflTransGen TransGen)

namespace Sheet

variable {s : Sheet}

/-- The references between formulas. -/
def FormulaReferences (s : Sheet) (p q : Position) : Prop :=
  s.References p q ∧ s.IsFormula q

/-- No formula leads back to itself. -/
def Acyclic (s : Sheet) : Prop :=
  ∀ p, ¬ TransGen s.FormulaReferences p p

/-- Every formula has a value. -/
def Solvable (s : Sheet) : Prop :=
  ∀ p, s.IsFormula p → ∃ v, s.HasValue (.place p) v

/-- Where no formula refers to a formula, there is no cycle. -/
theorem acyclic_of_no_edge (h : ∀ p q, ¬ s.FormulaReferences p q) : s.Acyclic := by
  intro p hp
  obtain ⟨q, hq, _⟩ := TransGen.head'_iff.1 hp
  exact h p q hq

theorem References.isFormula {p q : Position} (h : s.References p q) : s.IsFormula p := by
  obtain ⟨tree, hp, _⟩ := h
  exact ⟨tree, hp⟩

theorem finite_isFormula (s : Sheet) : Finite {p : Position // s.IsFormula p} := by
  have hsub : {p | s.IsFormula p} ⊆ {p | p ∈ s.places} := by
    rintro p ⟨tree, hp⟩
    exact mem_places_of_at? hp
  exact (s.places.finite_toSet.subset hsub).to_subtype

/-- Without cycles the formulas can be taken in an order in which each comes after those that it
refers to. -/
theorem Acyclic.wellFounded (h : s.Acyclic) :
    WellFounded fun q p : {p : Position // s.IsFormula p} => TransGen s.FormulaReferences p q := by
  have := s.finite_isFormula
  have htrans : IsTrans {p : Position // s.IsFormula p} fun q p =>
      TransGen s.FormulaReferences p q := ⟨fun _ _ _ hab hbc => hbc.trans hab⟩
  have hirrefl : Std.Irrefl fun q p : {p : Position // s.IsFormula p} =>
      TransGen s.FormulaReferences p q := ⟨fun p hp => h p hp⟩
  exact Finite.wellFounded_of_trans_of_irrefl _

/-- A place that is neither a text nor outside nor a formula has a value. -/
theorem exists_hasValue_of_not_formula {p : Position}
    (htext : ∀ content, s.at? p ≠ some (.text content)) (hin : s.at? p ≠ none)
    (hformula : ¬ s.IsFormula p) : ∃ v, s.HasValue (.place p) v := by
  cases h : s.at? p with
  | none => exact absurd h hin
  | some c =>
      cases c with
      | empty => exact ⟨0, .empty h⟩
      | text content => exact absurd h (htext content)
      | number value => exact ⟨value, .number h⟩
      | formula tree => exact absurd ⟨tree, h⟩ hformula

/-- Every formula has a value exactly when the references between formulas have no cycle and no
formula refers to a text or to a place outside. -/
theorem solvable_iff :
    s.Solvable ↔ s.Acyclic ∧ (∀ p q content, s.References p q → s.at? q ≠ some (.text content)) ∧
      ∀ p q, s.References p q → s.at? q ≠ none := by
  constructor
  · intro h
    have hvalue : ∀ {p q : Position}, s.References p q → ∃ v, s.HasValue (.place q) v := by
      intro p q hpq
      obtain ⟨v, hv⟩ := h p hpq.isFormula
      exact hv.of_references hpq
    refine ⟨fun p hp => ?_, fun p q content hpq htext => ?_, fun p q hpq hout => ?_⟩
    · have hcycle : TransGen s.References p p :=
        Relation.TransGen.mono (fun _ _ hab => hab.1) p p hp
      obtain ⟨q, hpq, _⟩ := Relation.TransGen.head'_iff.1 hcycle
      obtain ⟨v, hv⟩ := h p hpq.isFormula
      exact hv.not_cyclic hcycle
    · obtain ⟨v, hv⟩ := hvalue hpq
      exact not_hasValue_of_text htext v hv
    · obtain ⟨v, hv⟩ := hvalue hpq
      exact not_hasValue_of_outside hout v hv
  · rintro ⟨hacyclic, htext, hin⟩ p hp
    suffices key : ∀ p : {p : Position // s.IsFormula p}, ∃ v, s.HasValue (.place p) v from
      key ⟨p, hp⟩
    intro p
    induction p using hacyclic.wellFounded.induction with
    | h p ih =>
        obtain ⟨p, tree, hp⟩ := p
        -- What the formula refers to is a formula below it, or has a value of its own.
        have hvalue : ∀ q, .ref q ∈ tree.operands → ∃ w, s.HasValue (.place q) w := by
          intro q hq
          have hpq : s.References p q := ⟨tree, hp, hq⟩
          by_cases hqf : s.IsFormula q
          · exact ih ⟨q, hqf⟩ (.single ⟨hpq, hqf⟩)
          · exact exists_hasValue_of_not_formula (htext p q · hpq) (hin p q hpq) hqf
        obtain ⟨v, hv⟩ := exists_hasValue_tree hvalue
        exact ⟨v, .formula hp hv⟩

end Sheet

end PipeSheet
