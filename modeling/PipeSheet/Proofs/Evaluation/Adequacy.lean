import PipeSheet.Proofs.Evaluation.Run
import PipeSheet.Proofs.Table.Numbering
/-!
# PipeSheet.Proofs.Evaluation.Adequacy

**Every evaluation is a run, and every evaluation ends.**

Whenever the formulas that are not begun are no more than the depth of the evaluator, it ends, and
it ends as a run does (`resolve_runs`). The bound is kept because a formula that is begun stays
marked, so each nested formula finds one fewer that is not. A call starts with as much depth as
there are cells, hence `evaluateCell_runs` and `evaluateTable_runs`.
-/

namespace PipeSheet

open Formula (NodeId Store Tree)
open Sheet (Subject)

/-! ### Computations on states -/

/-- Runs a computation on a state: its result and the state after it. -/
def EvalM.exec {α : Type} (m : EvalM α) (σ : EvalState) : Except Halt α × EvalState :=
  m.run.run σ

namespace EvalM

variable {α β : Type} (σ : EvalState)

theorem exec_get : exec get σ = (.ok σ, σ) := rfl

theorem exec_bind (m : EvalM α) (k : α → EvalM β) :
    exec (m >>= k) σ =
      match m.exec σ with
      | (.ok a, σ') => (k a).exec σ'
      | (.error h, σ') => (.error h, σ') := by
  unfold exec
  simp only [ExceptT.run_bind, StateT.run_bind]
  obtain ⟨_ | a, σ'⟩ := StateT.run (ExceptT.run m) σ <;> rfl

variable {σ} {σ' : EvalState} {m : EvalM α}

theorem exec_bind_of_ok {a : α} (h : m.exec σ = (.ok a, σ')) (k : α → EvalM β) :
    exec (m >>= k) σ = (k a).exec σ' := by
  rw [exec_bind, h]

theorem exec_bind_of_error {e : Halt} (h : m.exec σ = (.error e, σ')) (k : α → EvalM β) :
    exec (m >>= k) σ = (.error e, σ') := by
  rw [exec_bind, h]

theorem exec_discard_of_ok {a : α} (h : m.exec σ = (.ok a, σ')) :
    exec (discard m) σ = (.ok (), σ') :=
  exec_bind_of_ok h fun _ => pure ()

theorem exec_discard_of_error {e : Halt} (h : m.exec σ = (.error e, σ')) :
    exec (discard m) σ = (.error e, σ') :=
  exec_bind_of_error h fun _ => pure ()

theorem exec_countVisit_bind (k : Unit → EvalM β) :
    exec (countVisit >>= k) σ = (k ()).exec σ.visit :=
  exec_bind_of_ok (show exec countVisit σ = (.ok (), σ.visit) from rfl) k

theorem exec_enter_bind (p : Position) (k : Unit → EvalM β) :
    exec (enter p >>= k) σ = (k ()).exec (σ.enter p) :=
  exec_bind_of_ok (show exec (enter p) σ = (.ok (), σ.enter p) from rfl) k

theorem exec_leave_bind (p : Position) (v : Float) (k : Unit → EvalM β) :
    exec (PipeSheet.leave p v >>= k) σ = (k ()).exec (σ.leave p v) :=
  exec_bind_of_ok (show exec (PipeSheet.leave p v) σ = (.ok (), σ.leave p v) from rfl) k

end EvalM

/-! ### Formulas that are not begun -/

namespace Table

/-- Whether a formula that is not begun stands at a position. -/
def waitsAt (t : Table) (p : Position) : Bool :=
  match t.get? p with
  | some (.formula f) => f.status = .unevaluated
  | _ => false

/-- The number of formulas that are not begun. -/
def waiting (t : Table) : Nat :=
  t.positions.countP t.waitsAt

variable {t t' : Table} {p : Position} {f : FormulaCell}

theorem waitsAt_iff : t.waitsAt p = true ↔
    ∃ f, t.get? p = some (.formula f) ∧ f.status = .unevaluated := by
  unfold waitsAt
  split <;> simp_all

theorem waiting_le (t : Table) : t.waiting ≤ t.cells.size :=
  t.length_positions ▸ List.countP_le_length

theorem Later.positions_eq (h : t.Later t') : t'.positions = t.positions := by
  rw [positions, positions, h.rows_eq, h.cols_eq]

theorem Later.waitsAt (h : t.Later t') (hp : t'.waitsAt p = true) : t.waitsAt p = true := by
  obtain ⟨f, hf, hs⟩ := waitsAt_iff.1 hp
  rcases h.cell_eq p with h' | ⟨f₁, _, h₁, hs₁, _⟩
  · exact waitsAt_iff.2 ⟨f, h' ▸ hf, hs⟩
  · exact waitsAt_iff.2 ⟨f₁, h₁, hs₁⟩

/-- No formula becomes one that is not begun. -/
theorem Later.waiting_le (h : t.Later t') : t'.waiting ≤ t.waiting := by
  rw [waiting, waiting, h.positions_eq]
  exact List.countP_mono_left fun _ _ hp => h.waitsAt hp

/-- A formula that begins is one fewer that is not begun. -/
theorem waiting_setFormula_lt (h : t.get? p = some (.formula f)) (hs : f.status = .unevaluated) :
    (t.setFormula p .inProgress 0).waiting < t.waiting := by
  have hlater : t.Later (t.setFormula p .inProgress 0) := .of_setFormula h hs .inProgress 0
  have hstate : (t.setFormula p .inProgress 0).waitsAt p = false := by
    simp [Table.waitsAt, get?_setFormula_self h]
  rw [waiting, waiting, hlater.positions_eq]
  exact countP_lt_countP (fun _ _ hq => hlater.waitsAt hq) (mem_positions.2 (contains_of_get? h))
    (waitsAt_iff.2 ⟨f, h, hs⟩) hstate

end Table

/-! ### Adequacy -/

variable {store : Store}

/-- If the evaluation of references is a run, so is that of a tree. -/
theorem evaluate_runs {resolve : Position → EvalM Float} {o : Option Position} {depth : Nat}
    (hresolve : ∀ (q : Position) (σ : EvalState), σ.table.Rooted store → σ.table.waiting ≤ depth →
      ∃ r σ', (resolve q).exec σ = (r.mapError .error, σ') ∧ Runs store o (.place q) σ r σ')
    (tree : Tree) (σ : EvalState) (hroot : σ.table.Rooted store)
    (hdepth : σ.table.waiting ≤ depth) :
    ∃ r σ', (tree.evaluate resolve).exec σ = (r.mapError .error, σ') ∧
      Runs store o (.tree tree) σ r σ' := by
  induction tree generalizing σ with
  | number v => exact ⟨.ok v, σ.visit, rfl, .literal⟩
  | ref target =>
      obtain ⟨r, σ', hexec, hrun⟩ := hresolve target σ.visit hroot hdepth
      refine ⟨r, σ', ?_, .reference hrun⟩
      rw [Tree.evaluate, EvalM.exec_countVisit_bind, hexec]
  | plus lhs rhs ihl ihr =>
      obtain ⟨r₁, σ₁, hexec₁, hrun₁⟩ := ihl σ.visit hroot hdepth
      cases r₁ with
      | error e =>
          refine ⟨.error e, σ₁, ?_, .plusLeft hrun₁⟩
          rw [Tree.evaluate, EvalM.exec_countVisit_bind, EvalM.exec_bind_of_error hexec₁]
          rfl
      | ok a =>
          have hlater : σ.table.Later σ₁.table := hrun₁.later
          obtain ⟨r₂, σ₂, hexec₂, hrun₂⟩ :=
            ihr σ₁ (hlater.rooted hroot) (Nat.le_trans hlater.waiting_le hdepth)
          cases r₂ with
          | error e =>
              refine ⟨.error e, σ₂, ?_, .plusRight hrun₁ hrun₂⟩
              rw [Tree.evaluate, EvalM.exec_countVisit_bind, EvalM.exec_bind_of_ok hexec₁,
                EvalM.exec_bind_of_error hexec₂]
              rfl
          | ok b =>
              refine ⟨.ok (a + b), σ₂, ?_, .plus hrun₁ hrun₂⟩
              rw [Tree.evaluate, EvalM.exec_countVisit_bind, EvalM.exec_bind_of_ok hexec₁,
                EvalM.exec_bind_of_ok hexec₂]
              rfl

/-- With enough depth the evaluation of a position ends, and it is a run. -/
theorem resolve_runs {depth : Nat} {σ : EvalState} (hroot : σ.table.Rooted store)
    (hdepth : σ.table.waiting ≤ depth) (o : Option Position) (p : Position) :
    ∃ r σ', (resolve store depth o p).exec σ = (r.mapError .error, σ') ∧
      Runs store o (.place p) σ r σ' := by
  induction depth using Nat.strongRecOn generalizing σ o p with
  | ind depth ih =>
      rw [resolve, EvalM.exec_bind_of_ok (EvalM.exec_get σ)]
      cases hcell : σ.table.get? p with
      | none => exact ⟨_, σ, rfl, .outside hcell⟩
      | some cell =>
          cases cell with
          | empty => exact ⟨.ok 0, σ, rfl, .empty hcell⟩
          | number v => exact ⟨.ok v, σ, rfl, .number hcell⟩
          | text span content => exact ⟨_, σ, rfl, .text hcell⟩
          | formula f =>
              cases hs : f.status with
              | evaluated =>
                  refine ⟨.ok f.value, σ.hit, ?_, .cached hcell hs⟩
                  simp only [hs]
                  rfl
              | inProgress =>
                  refine ⟨_, σ, ?_, .cycle hcell hs⟩
                  simp only [hs]
                  rfl
              | unevaluated =>
                  obtain ⟨tree, htree⟩ := hroot hcell
                  have hlater : σ.table.Later (σ.enter p).table := .of_setFormula hcell hs _ _
                  have hlt : (σ.enter p).table.waiting < σ.table.waiting :=
                    Table.waiting_setFormula_lt hcell hs
                  -- The formula itself was counted, so there is depth left for those inside it.
                  obtain ⟨depth, rfl⟩ : ∃ n, depth = n + 1 := ⟨depth - 1, by omega⟩
                  have hinner : ∀ (q : Position) (σ : EvalState), σ.table.Rooted store →
                      σ.table.waiting ≤ depth → ∃ r σ',
                        (resolve store depth (some p) q).exec σ = (r.mapError .error, σ') ∧
                          Runs store (some p) (.place q) σ r σ' :=
                    fun q σ hroot hdepth =>
                      ih depth (Nat.lt_succ_self depth) hroot hdepth (some p) q
                  obtain ⟨r, σ', hexec, hrun⟩ :=
                    evaluate_runs hinner tree (σ.enter p) (hlater.rooted hroot) (by omega)
                  simp only [hs, htree]
                  rw [EvalM.exec_enter_bind]
                  cases r with
                  | error e =>
                      refine ⟨.error e, σ', ?_, .broken hcell hs htree hrun⟩
                      rw [EvalM.exec_bind_of_error hexec]
                      rfl
                  | ok v =>
                      refine ⟨.ok v, σ'.leave p v, ?_, .done hcell hs htree hrun⟩
                      rw [EvalM.exec_bind_of_ok hexec, EvalM.exec_leave_bind]
                      rfl

theorem resolveAll_runs {depth : Nat} {σ : EvalState} (hroot : σ.table.Rooted store)
    (hdepth : σ.table.waiting ≤ depth) (ps : List Position) :
    ∃ r σ', (resolveAll store depth ps).exec σ = (r.mapError .error, σ') ∧
      RunsAll store ps σ r σ' := by
  induction ps generalizing σ with
  | nil => exact ⟨.ok (), σ, rfl, .nil⟩
  | cons p rest ih =>
      rw [resolveAll, EvalM.exec_bind_of_ok (EvalM.exec_get σ)]
      by_cases hf : ∃ f, σ.table.get? p = some (.formula f)
      · obtain ⟨f, hf⟩ := hf
        obtain ⟨r, σ₁, hexec, hrun⟩ := resolve_runs hroot hdepth none p
        simp only [hf, Option.getD_some, Cell.isFormula, if_true]
        cases r with
        | error e =>
            refine ⟨.error e, σ₁, ?_, .stop hf hrun⟩
            rw [EvalM.exec_bind_of_error (EvalM.exec_discard_of_error hexec)]
            rfl
        | ok v =>
            have hlater : σ.table.Later σ₁.table := hrun.later
            obtain ⟨r, σ₂, hexec₂, hrun₂⟩ :=
              ih (hlater.rooted hroot) (Nat.le_trans hlater.waiting_le hdepth)
            refine ⟨r, σ₂, ?_, .next hf hrun hrun₂⟩
            rw [EvalM.exec_bind_of_ok (EvalM.exec_discard_of_ok hexec)]
            exact hexec₂
      · have hother : ∀ f, σ.table.get? p ≠ some (.formula f) := fun f h => hf ⟨f, h⟩
        obtain ⟨r, σ', hexec, hrun⟩ := ih hroot hdepth
        refine ⟨r, σ', ?_, .skip hother hrun⟩
        simp only [Table.isFormula_getD_get? hother]
        exact hexec

/-! ### Calls -/

theorem Evaluator.run_eq_exec {α : Type} (e : Evaluator) (t : Table) (m : EvalM α) :
    e.run t m = ((m.exec ⟨t, e⟩).1, (m.exec ⟨t, e⟩).2.evaluator, (m.exec ⟨t, e⟩).2.table) := rfl

theorem eq_ok_of_mapError {α : Type} {r : Except EvalError α} {a : α}
    (h : r.mapError Halt.error = .ok a) : r = .ok a := by
  cases r with
  | ok b =>
      cases h
      rfl
  | error err => cases h

theorem exists_of_mapError {α : Type} {r : Except EvalError α} {halt : Halt}
    (h : r.mapError Halt.error = .error halt) : ∃ err, r = .error err ∧ halt = .error err := by
  cases r with
  | ok b => cases h
  | error err =>
      cases h
      exact ⟨err, rfl, rfl⟩

/-- Asking for a cell is a run, from any state. -/
theorem evaluateCell_runs {t : Table} (hroot : t.Rooted store) (e : Evaluator) (p : Position) :
    ∃ r σ', e.evaluateCell store t p = (r.mapError .error, σ'.evaluator, σ'.table) ∧
      Runs store none (.place p) ⟨t, e⟩ r σ' := by
  obtain ⟨r, σ', hexec, hrun⟩ := resolve_runs (σ := ⟨t, e⟩) hroot t.waiting_le none p
  refine ⟨r, σ', ?_, hrun⟩
  rw [Evaluator.evaluateCell, Evaluator.run_eq_exec, hexec]

/-- Asking for the table is a run over its places, from any state. -/
theorem evaluateTable_runs {t : Table} (hroot : t.Rooted store) (e : Evaluator) :
    ∃ r σ', e.evaluateTable store t =
        ((r.map fun _ => σ'.table.toGrid).mapError .error, σ'.evaluator, σ'.table) ∧
      RunsAll store t.positions ⟨t, e⟩ r σ' := by
  obtain ⟨r, σ', hexec, hrun⟩ := resolveAll_runs (σ := ⟨t, e⟩) hroot t.waiting_le t.positions
  refine ⟨r, σ', ?_, hrun⟩
  rw [Evaluator.evaluateTable, Evaluator.run_eq_exec]
  cases r with
  | error err => rw [EvalM.exec_bind_of_error hexec]; rfl
  | ok u => rw [EvalM.exec_bind_of_ok hexec]; rfl

end PipeSheet
