import PipeSheet.Command.Basic
import PipeSheet.Proofs.Evaluation.Sound
import PipeSheet.Proofs.Sheet.Solvable
/-!
# PipeSheet.Proofs.Evaluation.Call

**What a call on a sound table answers, and that it leaves a sound table.**

Between two calls nothing is on the stack (`Table.AtRest`). So from any such table, however much of
it has been evaluated and whatever has failed before, a cell is answered with its value if it has
one and with an error otherwise (`evaluateCell_eq_ok_iff`), and the table with its grid if all
formulas have values (`evaluateTable_eq_ok_iff`). Neither depends on the evaluator.
-/

namespace PipeSheet

open Formula (NodeId Store Tree)
open Sheet (Subject)

variable {store : Store} {s : Sheet} {t t' : Table} {σ σ' : EvalState}

/-! ### Grids of evaluated tables -/

/-- Every formula of the table is evaluated. -/
def Table.Evaluated (t : Table) : Prop :=
  ∀ {p : Position} {f : FormulaCell}, t.get? p = some (.formula f) → f.status = .evaluated

theorem Cell.value_of_evaluated {f : FormulaCell} (h : f.status = .evaluated) :
    (Cell.formula f).value = .number f.value := by
  obtain ⟨root, status, v⟩ := f
  obtain rfl : status = .evaluated := h
  rfl

/-- A sound table in which every formula is evaluated shows the grid of its sheet. -/
theorem Sound.shows (h : Sound store s [] t) (hall : t.Evaluated) : s.Shows t.toGrid := by
  refine ⟨congrArg Sheet.rows h.sheet_eq, congrArg Sheet.cols h.sheet_eq, fun p value => ?_⟩
  -- A place displays one value at most, so it is enough to see that it displays what its cell
  -- shows.
  have hcell : ∀ cell, t.get? p = some cell → s.Displays p cell.value := by
    intro cell hp
    have hat := h.at?_of_get? hp
    cases cell with
    | empty => exact Sheet.displays_of_empty hat
    | text span content => exact Sheet.displays_of_text hat
    | number v => exact Sheet.displays_of_number hat
    | formula f =>
        rw [Cell.value_of_evaluated (hall hp)]
        exact Sheet.displays_of_formula hat (h.hasValue hp (hall hp))
  rw [t.get?_toGrid]
  cases hp : t.get? p with
  | none => simp [Sheet.Displays, h.at?_of_outside hp]
  | some cell =>
      have hshown := hcell cell hp
      constructor
      · intro hvalue
        cases hvalue
        exact hshown
      · intro hdisplays
        exact congrArg some (hshown.unique hdisplays)

/-! ### Running over places -/

/-- A formula cell whose evaluation succeeds is evaluated afterwards. -/
theorem Runs.evaluated_of_ok {o : Option Position} {p : Position} {f : FormulaCell} {v : Float}
    (h : Runs store o (.place p) σ (.ok v) σ') (hp : σ.table.get? p = some (.formula f)) :
    ∃ f', σ'.table.get? p = some (.formula f') ∧ f'.status = .evaluated := by
  cases h with
  | empty h' => simp [hp] at h'
  | number h' => simp [hp] at h'
  | cached h' hs => exact ⟨_, h', hs⟩
  | done h' hs htree hrun =>
      have hbegun :=
        hrun.later.get?_of_begun (Table.get?_setFormula_self h' .inProgress 0) (by simp)
      exact ⟨_, Table.get?_setFormula_self hbegun .evaluated v, rfl⟩

/-- A run over places keeps a table sound. If it succeeds, the formulas among the places are
evaluated; if it fails, one of them has no value. -/
theorem RunsAll.sound {ps : List Position} {r : Except EvalError Unit}
    (h : RunsAll store ps σ r σ') (hsound : Sound store s [] σ.table) :
    Sound store s [] σ'.table ∧
      match r with
      | .ok _ => ∀ p ∈ ps, ∀ f, σ'.table.get? p = some (.formula f) → f.status = .evaluated
      | .error _ => ∃ p ∈ ps, (∃ f, σ.table.get? p = some (.formula f)) ∧
          ∀ v, ¬ s.HasValue (.place p) v := by
  induction h with
  | nil => exact ⟨hsound, fun p hp => by simp at hp⟩
  | @skip p rest r σ σ' hp hrest ih =>
      obtain ⟨hsound', hresult⟩ := ih hsound
      refine ⟨hsound', ?_⟩
      cases r with
      | error e =>
          obtain ⟨q, hq, hf, hno⟩ := hresult
          exact ⟨q, List.mem_cons_of_mem p hq, hf, hno⟩
      | ok u =>
          intro q hq f hf
          rcases List.mem_cons.1 hq with rfl | hq
          · obtain ⟨f₀, h₀, _⟩ := hrest.later.exists_formula_before hf
            exact absurd h₀ (hp f₀)
          · exact hresult q hq f hf
  | @next p rest f v r σ σ₁ σ₂ hp hrun hrest ih =>
      obtain ⟨hsound₁, _⟩ := hrun.sound hsound (Sheet.leads_nil _)
      obtain ⟨hsound₂, hresult⟩ := ih hsound₁
      refine ⟨hsound₂, ?_⟩
      cases r with
      | error e =>
          obtain ⟨q, hq, ⟨g, hg⟩, hno⟩ := hresult
          obtain ⟨g₀, hg₀, _⟩ := hrun.later.exists_formula_before hg
          exact ⟨q, List.mem_cons_of_mem p hq, ⟨g₀, hg₀⟩, hno⟩
      | ok u =>
          intro q hq g hg
          rcases List.mem_cons.1 hq with rfl | hq
          -- It was evaluated before the others ran, and they do not touch it.
          · obtain ⟨f', hf', hs'⟩ := hrun.evaluated_of_ok hp
            rw [hrest.later.get?_of_begun hf' (by simp [hs'])] at hg
            cases hg
            exact hs'
          · exact hresult q hq g hg
  | @stop p rest f e σ σ' hp hrun =>
      obtain ⟨hsound', hno⟩ := hrun.sound hsound (Sheet.leads_nil _)
      exact ⟨hsound', p, List.mem_cons_self, ⟨f, hp⟩, hno⟩

/-- A run over all places that succeeds evaluates all formulas. -/
theorem RunsAll.evaluated {ps : List Position} {u : Unit} (h : RunsAll store ps σ (.ok u) σ')
    (hps : ps = σ.table.positions) (hsound : Sound store s [] σ.table) : σ'.table.Evaluated := by
  obtain ⟨_, hall⟩ := h.sound hsound
  intro p f hp
  refine hall p ?_ f hp
  rw [hps, ← h.later.positions_eq]
  exact Table.mem_positions.2 (Table.contains_of_get? hp)

/-! ### Calls -/

/-- A table between two calls. -/
structure Table.AtRest (store : Store) (s : Sheet) (t : Table) : Prop where
  rooted : t.Rooted store
  sound : Sound store s [] t

/-- A cell is answered with its value if it has one, and with an error otherwise. -/
theorem evaluateCell_eq_ok_iff (h : t.AtRest store s) (e : Evaluator) (p : Position) (v : Float) :
    (e.evaluateCell store t p).1 = .ok v ↔ s.HasValue (.place p) v := by
  obtain ⟨r, σ', hcall, hrun⟩ := evaluateCell_runs h.rooted e p
  obtain ⟨_, hanswer⟩ := hrun.sound h.sound (Sheet.leads_nil _)
  rw [hcall]
  cases r with
  | error err =>
      constructor
      · intro hr
        cases hr
      · intro hv
        exact absurd hv (hanswer v)
  | ok w =>
      constructor
      · intro hr
        cases hr
        exact hanswer
      · intro hv
        rw [hanswer.unique hv]
        rfl

/-- The table is answered with the grid of its sheet, if there is one. -/
theorem evaluateTable_eq_ok_iff (h : t.AtRest store s) (e : Evaluator) (g : Grid) :
    (e.evaluateTable store t).1 = .ok g ↔ s.Shows g := by
  obtain ⟨r, σ', hcall, hrun⟩ := evaluateTable_runs h.rooted e
  obtain ⟨hsound', hresult⟩ := hrun.sound h.sound
  rw [hcall]
  cases r with
  | error err =>
      constructor
      · intro hr
        cases hr
      · intro hshows
        obtain ⟨p, _, ⟨f, hf⟩, hno⟩ := hresult
        obtain ⟨tree, htree⟩ := h.rooted hf
        obtain ⟨v, hv⟩ := hshows.exists_hasValue ⟨tree, h.sound.at?_of_formula hf htree⟩
        exact absurd hv (hno v)
  | ok u =>
      have hshows : s.Shows σ'.table.toGrid := hsound'.shows (hrun.evaluated rfl h.sound)
      constructor
      · intro hr
        cases hr
        exact hshows
      · intro hg
        rw [hshows.unique hg]
        rfl

/-- The table is answered with a grid exactly when every formula has a value. -/
theorem exists_evaluateTable_eq_ok_iff (h : t.AtRest store s) (e : Evaluator) :
    (∃ g, (e.evaluateTable store t).1 = .ok g) ↔ s.Solvable := by
  constructor
  · rintro ⟨g, hg⟩ p hp
    exact ((evaluateTable_eq_ok_iff h e g).1 hg).exists_hasValue hp
  · intro hsolvable
    obtain ⟨r, σ', hcall, hrun⟩ := evaluateTable_runs h.rooted e
    obtain ⟨_, hresult⟩ := hrun.sound h.sound
    rw [hcall]
    cases r with
    | ok u => exact ⟨σ'.table.toGrid, rfl⟩
    | error err =>
        obtain ⟨p, _, ⟨f, hf⟩, hno⟩ := hresult
        obtain ⟨tree, htree⟩ := h.rooted hf
        obtain ⟨v, hv⟩ := hsolvable p ⟨tree, h.sound.at?_of_formula hf htree⟩
        exact absurd hv (hno v)

/-- A call leaves the table at rest, whether it succeeds or not. -/
theorem Table.AtRest.evaluateCell (h : t.AtRest store s) (e : Evaluator) (p : Position) :
    (e.evaluateCell store t p).2.2.AtRest store s := by
  obtain ⟨r, σ', hcall, hrun⟩ := evaluateCell_runs h.rooted e p
  rw [hcall]
  exact ⟨hrun.later.rooted h.rooted, (hrun.sound h.sound (Sheet.leads_nil _)).1⟩

theorem Table.AtRest.evaluateTable (h : t.AtRest store s) (e : Evaluator) :
    (e.evaluateTable store t).2.2.AtRest store s := by
  obtain ⟨r, σ', hcall, hrun⟩ := evaluateTable_runs h.rooted e
  rw [hcall]
  exact ⟨hrun.later.rooted h.rooted, (hrun.sound h.sound).1⟩

/-- A source is evaluated when it reads and its table is evaluated. -/
theorem evaluateSource_eq_ok_iff {source : List Char} {g : Grid} {stats : Stats} :
    evaluateSource source = .ok (g, stats) ↔ ∃ t store e t',
      Table.read source .empty = (.ok t, store) ∧
      ({} : Evaluator).evaluateTable store t = (.ok g, e, t') ∧ e.stats = stats := by
  unfold evaluateSource
  cases hread : Table.read source .empty with
  | mk result store =>
      cases result with
      | error e => simp
      | ok t =>
          dsimp only
          cases hcall : ({} : Evaluator).evaluateTable store t with
          | mk result state =>
              cases result with
              | error halt => simp [hcall]
              | ok g' =>
                  obtain ⟨e, t'⟩ := state
                  simp [hcall]

end PipeSheet
