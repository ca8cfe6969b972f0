import PipeSheet.Proofs.Evaluation.Adequacy
import PipeSheet.Proofs.Table.Relabel
/-!
# PipeSheet.Proofs.Evaluation.Relabel

**An evaluation never looks at an id or a span, only at what is there.**

If the new names of a relabelled table say the same trees in another store, then its formulas are
evaluated in the same way there: with the same value or error and the same counts. Every rule of a
run is carried over (`Runs.relabel`), and since a state has only one run, the call with the other
labels is the call that was carried over.

* `Runs.unique`, `RunsAll.unique`: a state has one run;
* `Store.Renames`: names under which another store says the same;
* `Runs.relabel`, `RunsAll.relabel`: runs with other labels;
* `evaluateCell_relabel`, `evaluateTable_relabel`: the law.
-/

namespace PipeSheet

open Formula (NodeId Store)
open Sheet (Subject)

variable {store store' : Store} {ρ : Relabelling} {t : Table}

/-! ### One run -/

/-- A subject is evaluated from a state in one way only. -/
theorem Runs.unique {o : Option Position} {x : Subject} {σ σ₁ σ₂ : EvalState}
    {r r' : Except EvalError Float} (h : Runs store o x σ r σ₁) (h' : Runs store o x σ r' σ₂) :
    r = r' ∧ σ₁ = σ₂ := by
  induction h generalizing r' σ₂ with
  -- The cell in a place and its status leave one rule for the place.
  | outside hp => cases h' <;> simp_all
  | empty hp => cases h' <;> simp_all
  | number hp => cases h' <;> simp_all
  | text hp => cases h' <;> simp_all
  | cached hp hs => cases h' <;> simp_all
  | cycle hp hs => cases h' <;> simp_all
  | done hp hs htree _ ih =>
      cases h' with
      | done hp' _ htree' h' =>
          cases hp.symm.trans hp'
          cases htree.symm.trans htree'
          obtain ⟨hv, rfl⟩ := ih h'
          cases hv
          exact ⟨rfl, rfl⟩
      | broken hp' _ htree' h' =>
          cases hp.symm.trans hp'
          cases htree.symm.trans htree'
          cases (ih h').1
      | _ => simp_all
  | broken hp hs htree _ ih =>
      cases h' with
      | done hp' _ htree' h' =>
          cases hp.symm.trans hp'
          cases htree.symm.trans htree'
          cases (ih h').1
      | broken hp' _ htree' h' =>
          cases hp.symm.trans hp'
          cases htree.symm.trans htree'
          exact ih h'
      | _ => simp_all
  | literal =>
      cases h'
      exact ⟨rfl, rfl⟩
  | reference _ ih =>
      cases h' with
      | reference h' => exact ih h'
  | plus _ _ ihl ihr =>
      cases h' with
      | plus hl hr =>
          obtain ⟨ha, rfl⟩ := ihl hl
          obtain ⟨hb, rfl⟩ := ihr hr
          cases ha
          cases hb
          exact ⟨rfl, rfl⟩
      | plusLeft hl => cases (ihl hl).1
      | plusRight hl hr =>
          obtain ⟨_, rfl⟩ := ihl hl
          cases (ihr hr).1
  | plusLeft _ ih =>
      cases h' with
      | plus hl _ => cases (ih hl).1
      | plusLeft hl => exact ih hl
      | plusRight hl _ => cases (ih hl).1
  | plusRight _ _ ihl ihr =>
      cases h' with
      | plus hl hr =>
          obtain ⟨_, rfl⟩ := ihl hl
          cases (ihr hr).1
      | plusLeft hl => cases (ihl hl).1
      | plusRight hl hr =>
          obtain ⟨_, rfl⟩ := ihl hl
          exact ihr hr

theorem RunsAll.unique {ps : List Position} {σ σ₁ σ₂ : EvalState} {r r' : Except EvalError Unit}
    (h : RunsAll store ps σ r σ₁) (h' : RunsAll store ps σ r' σ₂) : r = r' ∧ σ₁ = σ₂ := by
  induction h generalizing r' σ₂ with
  | nil =>
      cases h'
      exact ⟨rfl, rfl⟩
  | skip hp _ ih =>
      cases h' with
      | skip _ h' => exact ih h'
      | next hp' _ _ => exact absurd hp' (hp _)
      | stop hp' _ => exact absurd hp' (hp _)
  | next hp hrun _ ih =>
      cases h' with
      | skip hp' _ => exact absurd hp (hp' _)
      | next _ hrun' h' =>
          obtain ⟨_, rfl⟩ := hrun.unique hrun'
          exact ih h'
      | stop _ hrun' => cases (hrun.unique hrun').1
  | stop hp hrun =>
      cases h' with
      | skip hp' _ => exact absurd hp (hp' _)
      | next _ hrun' _ => cases (hrun.unique hrun').1
      | stop _ hrun' =>
          obtain ⟨he, rfl⟩ := hrun.unique hrun'
          cases he
          exact ⟨rfl, rfl⟩

/-! ### Runs with other labels -/

/-- Whatever an id says in one store, its other name says in the other one. -/
def Formula.Store.Renames (name : NodeId → NodeId) (store store' : Store) : Prop :=
  ∀ id tree, store.tree? id = some tree → store'.tree? (name id) = some tree

theorem Formula.Store.Renames.rooted (h : Store.Renames ρ.name store store')
    (ht : t.Rooted store) : (t.relabel ρ).Rooted store' := by
  intro p f hp
  obtain ⟨f, hf, rfl⟩ := Table.exists_formula_of_relabel hp
  obtain ⟨tree, htree⟩ := ht hf
  exact ⟨tree, h _ _ htree⟩

/-- The state with other labels in its table. -/
def EvalState.relabel (ρ : Relabelling) (σ : EvalState) : EvalState :=
  { σ with table := σ.table.relabel ρ }

section States

variable {σ σ' : EvalState}

theorem EvalState.enter_relabel (p : Position) :
    (σ.relabel ρ).enter p = (σ.enter p).relabel ρ := by
  rw [enter, relabel, Table.setFormula_relabel]
  rfl

theorem EvalState.leave_relabel (p : Position) (v : Float) :
    (σ.relabel ρ).leave p v = (σ.leave p v).relabel ρ := by
  rw [leave, relabel, Table.setFormula_relabel]
  rfl

theorem EvalState.get?_relabel {p : Position} {cell? : Option Cell}
    (h : σ.table.get? p = cell?) :
    (σ.relabel ρ).table.get? p = cell?.map (Cell.relabel ρ) := by
  rw [← h]
  exact Table.get?_relabel ρ σ.table p

/-- A run with other labels is a run. -/
theorem Runs.relabel {o : Option Position} {x : Subject} {r : Except EvalError Float}
    (hname : Store.Renames ρ.name store store') (h : Runs store o x σ r σ') :
    Runs store' o x (σ.relabel ρ) r (σ'.relabel ρ) := by
  induction h with
  | outside hp => exact .outside (EvalState.get?_relabel hp)
  | empty hp => exact .empty (EvalState.get?_relabel hp)
  | number hp => exact .number (EvalState.get?_relabel hp)
  | text hp => exact .text (EvalState.get?_relabel hp)
  | @cached _ _ f _ hp hs =>
      exact .cached (f := { f with root := ρ.name f.root }) (Table.get?_relabel_formula hp) hs
  | cycle hp hs => exact .cycle (Table.get?_relabel_formula hp) hs
  | done hp hs htree _ ih =>
      rw [← EvalState.enter_relabel] at ih
      rw [← EvalState.leave_relabel]
      exact .done (Table.get?_relabel_formula hp) hs (hname _ _ htree) ih
  | broken hp hs htree _ ih =>
      rw [← EvalState.enter_relabel] at ih
      exact .broken (Table.get?_relabel_formula hp) hs (hname _ _ htree) ih
  | literal => exact .literal
  | reference _ ih => exact .reference ih
  | plus _ _ ihl ihr => exact .plus ihl ihr
  | plusLeft _ ih => exact .plusLeft ih
  | plusRight _ _ ihl ihr => exact .plusRight ihl ihr

theorem RunsAll.relabel {ps : List Position} {r : Except EvalError Unit}
    (hname : Store.Renames ρ.name store store') (h : RunsAll store ps σ r σ') :
    RunsAll store' ps (σ.relabel ρ) r (σ'.relabel ρ) := by
  induction h with
  | nil => exact .nil
  | skip hp _ ih =>
      refine .skip (fun f hf => ?_) ih
      obtain ⟨f', hf', _⟩ := Table.exists_formula_of_relabel hf
      exact hp f' hf'
  | next hp hrun _ ih => exact .next (Table.get?_relabel_formula hp) (hrun.relabel hname) ih
  | stop hp hrun => exact .stop (Table.get?_relabel_formula hp) (hrun.relabel hname)

end States

/-! ### Calls with other labels -/

/-- A cell is answered in the same way, and the table after it has the other labels. -/
theorem evaluateCell_relabel (hname : Store.Renames ρ.name store store') (hroot : t.Rooted store)
    (e : Evaluator) (p : Position) :
    e.evaluateCell store' (t.relabel ρ) p =
      let (result, e', t') := e.evaluateCell store t p
      (result, e', t'.relabel ρ) := by
  obtain ⟨r, σ, hcall, hrun⟩ := evaluateCell_runs hroot e p
  obtain ⟨r', σ', hcall', hrun'⟩ := evaluateCell_runs (hname.rooted hroot) e p
  obtain ⟨rfl, rfl⟩ := (hrun.relabel hname).unique hrun'
  rw [hcall, hcall']
  rfl

/-- The table is answered in the same way, and it has the other labels after it. -/
theorem evaluateTable_relabel (hname : Store.Renames ρ.name store store') (hroot : t.Rooted store)
    (e : Evaluator) :
    e.evaluateTable store' (t.relabel ρ) =
      let (result, e', t') := e.evaluateTable store t
      (result, e', t'.relabel ρ) := by
  obtain ⟨r, σ, hcall, hrun⟩ := evaluateTable_runs hroot e
  obtain ⟨r', σ', hcall', hrun'⟩ := evaluateTable_runs (hname.rooted hroot) e
  obtain ⟨rfl, rfl⟩ := (hrun.relabel hname).unique hrun'
  have hgrid : (σ.relabel ρ).table.toGrid = σ.table.toGrid := Table.toGrid_relabel ρ σ.table
  rw [hcall, hcall', hgrid]
  rfl

end PipeSheet
