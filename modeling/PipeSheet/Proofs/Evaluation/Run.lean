import PipeSheet.Evaluation.Basic
import PipeSheet.Proofs.Sheet.Naive
/-!
# PipeSheet.Proofs.Evaluation.Run

**What one evaluation does, as a relation between the states before and after it.**

`Runs` has one rule for every way in which a place or a formula is evaluated. What a run keeps is
proved by induction on it, one case for each rule, and never by opening the evaluator.

* `EvalState.visit`, `EvalState.hit`, `EvalState.enter`, `EvalState.leave`: the steps on states;
* `Runs`, `RunsAll`: evaluating one subject, and the formulas of a list of places;
* `Table.Later`: what evaluations may change in a table.
-/

namespace PipeSheet

open Formula (NodeId Store Tree)
open Sheet (Subject)

/-! ### The steps on states -/

namespace EvalState

/-- A node is visited. -/
def visit (σ : EvalState) : EvalState :=
  { σ with evaluator.stats.nodesVisited := σ.evaluator.stats.nodesVisited + 1 }

/-- A reference is answered by a known value. -/
def hit (σ : EvalState) : EvalState :=
  { σ with evaluator.stats.cacheHits := σ.evaluator.stats.cacheHits + 1 }

/-- The formula at a position begins. -/
def enter (σ : EvalState) (p : Position) : EvalState where
  table := σ.table.setFormula p .inProgress 0
  evaluator := {
    stats := { σ.evaluator.stats with
      formulasEvaluated := σ.evaluator.stats.formulasEvaluated + 1 }
    path := p :: σ.evaluator.path }

/-- The formula at a position ends with a value. -/
def leave (σ : EvalState) (p : Position) (value : Float) : EvalState where
  table := σ.table.setFormula p .evaluated value
  evaluator := { σ.evaluator with path := σ.evaluator.path.tail }

end EvalState

/-! ### Runs -/

/-- Evaluating a subject, asked for by the formula at `origin` if there is one, takes one state to
another and has a result. -/
inductive Runs (store : Store) :
    Option Position → Subject → EvalState → Except EvalError Float → EvalState → Prop
  | outside {o : Option Position} {p : Position} {σ : EvalState} :
      σ.table.get? p = none →
      Runs store o (.place p) σ (.error (.outOfBounds p o σ.table.rows σ.table.cols)) σ
  | empty {o : Option Position} {p : Position} {σ : EvalState} :
      σ.table.get? p = some .empty →
      Runs store o (.place p) σ (.ok 0) σ
  | number {o : Option Position} {p : Position} {v : Float} {σ : EvalState} :
      σ.table.get? p = some (.number v) →
      Runs store o (.place p) σ (.ok v) σ
  | text {o : Option Position} {p : Position} {span : Span} {content : List Char} {σ : EvalState} :
      σ.table.get? p = some (.text span content) →
      Runs store o (.place p) σ (.error (.typeMismatch p o content)) σ
  /-- The formula was evaluated before. -/
  | cached {o : Option Position} {p : Position} {f : FormulaCell} {σ : EvalState} :
      σ.table.get? p = some (.formula f) → f.status = .evaluated →
      Runs store o (.place p) σ (.ok f.value) σ.hit
  /-- The formula was begun before and has not ended. -/
  | cycle {o : Option Position} {p : Position} {f : FormulaCell} {σ : EvalState} :
      σ.table.get? p = some (.formula f) → f.status = .inProgress →
      Runs store o (.place p) σ (.error (.circularDependency p (σ.evaluator.cycleTo p))) σ
  /-- The formula begins and ends. -/
  | done {o : Option Position} {p : Position} {f : FormulaCell} {tree : Tree} {v : Float}
      {σ σ' : EvalState} :
      σ.table.get? p = some (.formula f) → f.status = .unevaluated →
      store.tree? f.root = some tree →
      Runs store (some p) (.tree tree) (σ.enter p) (.ok v) σ' →
      Runs store o (.place p) σ (.ok v) (σ'.leave p v)
  /-- The formula begins and fails. -/
  | broken {o : Option Position} {p : Position} {f : FormulaCell} {tree : Tree} {e : EvalError}
      {σ σ' : EvalState} :
      σ.table.get? p = some (.formula f) → f.status = .unevaluated →
      store.tree? f.root = some tree →
      Runs store (some p) (.tree tree) (σ.enter p) (.error e) σ' →
      Runs store o (.place p) σ (.error e) σ'
  | literal {o : Option Position} {v : Float} {σ : EvalState} :
      Runs store o (.tree (.number v)) σ (.ok v) σ.visit
  | reference {o : Option Position} {q : Position} {r : Except EvalError Float}
      {σ σ' : EvalState} :
      Runs store o (.place q) σ.visit r σ' →
      Runs store o (.tree (.ref q)) σ r σ'
  | plus {o : Option Position} {lhs rhs : Tree} {a b : Float} {σ σ₁ σ₂ : EvalState} :
      Runs store o (.tree lhs) σ.visit (.ok a) σ₁ →
      Runs store o (.tree rhs) σ₁ (.ok b) σ₂ →
      Runs store o (.tree (.plus lhs rhs)) σ (.ok (a + b)) σ₂
  | plusLeft {o : Option Position} {lhs rhs : Tree} {e : EvalError} {σ σ' : EvalState} :
      Runs store o (.tree lhs) σ.visit (.error e) σ' →
      Runs store o (.tree (.plus lhs rhs)) σ (.error e) σ'
  | plusRight {o : Option Position} {lhs rhs : Tree} {a : Float} {e : EvalError}
      {σ σ₁ σ₂ : EvalState} :
      Runs store o (.tree lhs) σ.visit (.ok a) σ₁ →
      Runs store o (.tree rhs) σ₁ (.error e) σ₂ →
      Runs store o (.tree (.plus lhs rhs)) σ (.error e) σ₂

/-- Evaluating the formulas among some places, in order, until one fails. -/
inductive RunsAll (store : Store) :
    List Position → EvalState → Except EvalError Unit → EvalState → Prop
  | nil {σ : EvalState} : RunsAll store [] σ (.ok ()) σ
  | skip {p : Position} {rest : List Position} {r : Except EvalError Unit} {σ σ' : EvalState} :
      (∀ f, σ.table.get? p ≠ some (.formula f)) →
      RunsAll store rest σ r σ' → RunsAll store (p :: rest) σ r σ'
  | next {p : Position} {rest : List Position} {f : FormulaCell} {v : Float}
      {r : Except EvalError Unit} {σ σ₁ σ₂ : EvalState} :
      σ.table.get? p = some (.formula f) →
      Runs store none (.place p) σ (.ok v) σ₁ →
      RunsAll store rest σ₁ r σ₂ → RunsAll store (p :: rest) σ r σ₂
  | stop {p : Position} {rest : List Position} {f : FormulaCell} {e : EvalError}
      {σ σ' : EvalState} :
      σ.table.get? p = some (.formula f) →
      Runs store none (.place p) σ (.error e) σ' →
      RunsAll store (p :: rest) σ (.error e) σ'

/-! ### What a run may change -/

/-- A later state of a table: some formulas that were not begun have another state, and nothing
else is different. -/
structure Table.Later (t t' : Table) : Prop where
  rows_eq : t'.rows = t.rows
  cols_eq : t'.cols = t.cols
  source_eq : t'.source = t.source
  cell_eq : ∀ p, t'.get? p = t.get? p ∨
    ∃ f f', t.get? p = some (.formula f) ∧ f.status = .unevaluated ∧
      t'.get? p = some (.formula f') ∧ f'.root = f.root

namespace Table

variable {t t' t'' : Table} {p q : Position} {f : FormulaCell}

/-- The formula at a position has the state that it is given. -/
theorem get?_setFormula_self (h : t.get? p = some (.formula f)) (status : Status) (v : Float) :
    (t.setFormula p status v).get? p = some (.formula { f with status, value := v }) := by
  rw [get?_setFormula t (contains_of_get? h), if_pos rfl, h]
  rfl

theorem get?_setFormula_of_ne (h : t.get? p = some (.formula f)) (status : Status) (v : Float)
    (hq : q ≠ p) : (t.setFormula p status v).get? q = t.get? q := by
  rw [get?_setFormula t (contains_of_get? h), if_neg hq]

/-- A formula after a change is the one that was changed, or another one that was not. -/
theorem formula_setFormula {status : Status} {v : Float} {g : FormulaCell}
    (h : t.get? p = some (.formula f))
    (hg : (t.setFormula p status v).get? q = some (.formula g)) :
    (q = p ∧ g = { f with status, value := v }) ∨ (q ≠ p ∧ t.get? q = some (.formula g)) := by
  by_cases hq : q = p
  · subst hq
    rw [get?_setFormula_self h] at hg
    cases hg
    exact .inl ⟨rfl, rfl⟩
  · rw [get?_setFormula_of_ne h _ _ hq] at hg
    exact .inr ⟨hq, hg⟩

namespace Later

theorem refl (t : Table) : t.Later t :=
  ⟨rfl, rfl, rfl, fun _ => .inl rfl⟩

theorem trans (h : t.Later t') (h' : t'.Later t'') : t.Later t'' := by
  refine ⟨h'.rows_eq.trans h.rows_eq, h'.cols_eq.trans h.cols_eq, h'.source_eq.trans h.source_eq,
    fun p => ?_⟩
  rcases h'.cell_eq p with h₂ | ⟨f₁, f₂, h₁, hs₁, h₂, hr₂⟩
  · rw [h₂]
    exact h.cell_eq p
  · rcases h.cell_eq p with h₀ | ⟨f, f₁', h₀, hs, h₁', hr₁⟩
    · exact .inr ⟨f₁, f₂, h₀ ▸ h₁, hs₁, h₂, hr₂⟩
    · obtain rfl : f₁ = f₁' := by simpa [h₁] using h₁'
      exact .inr ⟨f, f₂, h₀, hs, h₂, hr₂.trans hr₁⟩

/-- A formula that is not begun may be given any state. -/
theorem of_setFormula (h : t.get? p = some (.formula f)) (hs : f.status = .unevaluated)
    (status : Status) (v : Float) : t.Later (t.setFormula p status v) := by
  refine ⟨rfl, rfl, rfl, fun q => ?_⟩
  by_cases hq : q = p
  · subst hq
    exact .inr ⟨f, _, h, hs, get?_setFormula_self h status v, rfl⟩
  · exact .inl (get?_setFormula_of_ne h status v hq)

/-- A formula that is not begun may begin, and end after a run. -/
theorem of_enter_leave (h : t.get? p = some (.formula f)) (hs : f.status = .unevaluated)
    (hrun : (t.setFormula p .inProgress 0).Later t') (v : Float) :
    t.Later (t'.setFormula p .evaluated v) := by
  have hp : t'.get? p = some (.formula { f with status := .inProgress, value := 0 }) := by
    rcases hrun.cell_eq p with h' | ⟨f₁, _, h₁, hs₁, _⟩
    · rw [h', get?_setFormula_self h]
    · rw [get?_setFormula_self h] at h₁
      cases h₁
      cases hs₁
  refine ⟨hrun.rows_eq, hrun.cols_eq, hrun.source_eq, fun q => ?_⟩
  by_cases hq : q = p
  · subst hq
    exact .inr ⟨f, _, h, hs, get?_setFormula_self hp .evaluated v, rfl⟩
  · rw [get?_setFormula_of_ne hp .evaluated v hq, ← get?_setFormula_of_ne h .inProgress 0 hq]
    exact hrun.cell_eq q

/-- A formula that was begun keeps its state. -/
theorem get?_of_begun (h : t.Later t') (hp : t.get? p = some (.formula f))
    (hs : f.status ≠ .unevaluated) : t'.get? p = some (.formula f) := by
  rcases h.cell_eq p with h' | ⟨f₁, _, h₁, hs₁, _⟩
  · rw [h', hp]
  · rw [hp] at h₁
    cases h₁
    exact absurd hs₁ hs

/-- A formula of the later state was there before. -/
theorem exists_formula_before (h : t.Later t') (hp : t'.get? p = some (.formula f)) :
    ∃ f₀, t.get? p = some (.formula f₀) ∧ f.root = f₀.root := by
  rcases h.cell_eq p with h' | ⟨f₁, f₂, h₁, _, h₂, hr⟩
  · exact ⟨f, h' ▸ hp, rfl⟩
  · rw [hp] at h₂
    cases h₂
    exact ⟨f₁, h₁, hr⟩

/-- What a table says does not change. -/
theorem sheet_eq (h : t.Later t') (store : Store) : t'.sheet store = t.sheet store := by
  refine Sheet.ext h.rows_eq h.cols_eq fun p => ?_
  rw [at?_sheet, at?_sheet]
  rcases h.cell_eq p with h' | ⟨f₁, f₂, h₁, _, h₂, hr⟩
  · rw [h']
  · rw [h₁, h₂]
    simp [Cell.content, hr]

theorem rooted {store : Store} (h : t.Later t') (ht : t.Rooted store) : t'.Rooted store := by
  intro p f hp
  obtain ⟨f₀, h₀, hr⟩ := h.exists_formula_before hp
  rw [hr]
  exact ht h₀

end Later

end Table

theorem Runs.later {store : Store} {o : Option Position} {x : Subject} {σ σ' : EvalState}
    {r : Except EvalError Float} (h : Runs store o x σ r σ') : σ.table.Later σ'.table := by
  induction h with
  | outside _ => exact .refl _
  | empty _ => exact .refl _
  | number _ => exact .refl _
  | text _ => exact .refl _
  | cached _ _ => exact .refl _
  | cycle _ _ => exact .refl _
  | done hp hs _ _ ih => exact .of_enter_leave hp hs ih _
  | broken hp hs _ _ ih => exact (Table.Later.of_setFormula hp hs .inProgress 0).trans ih
  | literal => exact .refl _
  | reference _ ih => exact ih
  | plus _ _ ih₁ ih₂ => exact ih₁.trans ih₂
  | plusLeft _ ih => exact ih
  | plusRight _ _ ih₁ ih₂ => exact ih₁.trans ih₂

theorem RunsAll.later {store : Store} {ps : List Position} {σ σ' : EvalState}
    {r : Except EvalError Unit} (h : RunsAll store ps σ r σ') : σ.table.Later σ'.table := by
  induction h with
  | nil => exact .refl _
  | skip _ _ ih => exact ih
  | next _ hrun _ ih => exact hrun.later.trans ih
  | stop _ hrun => exact hrun.later

end PipeSheet
