import PipeSheet.Proofs.Evaluation.History
import PipeSheet.Proofs.Safety.Evaluation
import PipeSheet.Proofs.Safety.Reading
/-!
# PipeSheet.Proofs.Safety.NoPanic

**No source makes the program stop with a panic.**

The table of a source is safe to evaluate, and whatever happens on a workbench leaves all its tables
safe: calls that fail, evaluators that take turns, copies that are put back. So the program with
checks and the program without do the same, and every call ends with a value or an error of its own.

* `Workbench.Safe`: the invariant of a workbench;
* `Checked.work`: actions on a workbench with checks;
* `Checked.no_panic`: the law.
-/

namespace PipeSheet

open Formula (Store ok_bind)
open Text (byteLength)

variable {store : Store} {t : Table} {w : Workbench}

/-- A table that was just read is safe. -/
theorem Table.safe_of_read {source : List Char} {before : Store}
    (hsource : byteLength source < 2 ^ 32) (hread : Table.read source before = (.ok t, store))
    (hsize : store.size ≤ 2 ^ 32) : t.Safe store := by
  have hreads := readsAs_of_size_le hread hsize
  refine hreads.safe hsource ?_ (separate_of_read hread hsize)
  rw [hreads.rows_eq, hreads.cols_eq]
  exact area_lt hsource

/-! ### Workbenches -/

/-- All tables on the bench are safe. -/
structure Workbench.Safe (store : Store) (w : Workbench) : Prop where
  table : w.table.Safe store
  copies : ∀ i, (w.copies i).Safe store

theorem Table.Safe.evaluateCell (h : t.Safe store) (e : Evaluator) (p : Position) :
    (e.evaluateCell store t p).2.2.Safe store := by
  obtain ⟨r, σ', hcall, hrun⟩ := evaluateCell_runs h.rooted e p
  rw [hcall]
  exact hrun.later.safe h

theorem Table.Safe.evaluateTable (h : t.Safe store) (e : Evaluator) :
    (e.evaluateTable store t).2.2.Safe store := by
  obtain ⟨r, σ', hcall, hrun⟩ := evaluateTable_runs h.rooted e
  rw [hcall]
  exact hrun.later.safe h

theorem Workbench.Safe.step (h : w.Safe store) (a : Workbench.Action) :
    (w.step store a).Safe store := by
  obtain ⟨htable, hcopies⟩ := step_keeps (P := (·.Safe store))
    (fun _ e p ht => ht.evaluateCell e p) (fun _ e ht => ht.evaluateTable e) h.table h.copies a
  exact ⟨htable, hcopies⟩

theorem Workbench.Safe.run (h : w.Safe store) (actions : List Workbench.Action) :
    (w.run store actions).Safe store := by
  obtain ⟨htable, hcopies⟩ := run_induction (P := (·.Safe store))
    (fun _ e p ht => ht.evaluateCell e p) (fun _ e ht => ht.evaluateTable e)
    h.table h.copies actions
  exact ⟨htable, hcopies⟩

/-! ### The whole program -/

/-- A call ends with a result or with one of the errors that it may have. -/
def Declared {α : Type} : Except Halt α → Prop
  | .ok _ => True
  | .error (.error _) => True
  | .error _ => False

theorem declared_mapError {α : Type} (r : Except EvalError α) :
    Declared (r.mapError Halt.error) := by
  cases r <;> exact trivial

namespace Checked

/-- One action on a workbench. -/
def step (store : Store) (w : Workbench) : Workbench.Action → Except Panic Workbench
  | .evaluateCell i p => do
    let (_, e, t) ← evaluateCell store (w.evaluators i) w.table p
    .ok (w.worked i e t)
  | .evaluateTable i => do
    let (_, e, t) ← evaluateTable store (w.evaluators i) w.table
    .ok (w.worked i e t)
  | .keep i => .ok (w.step store (.keep i))
  | .putBack i => .ok (w.step store (.putBack i))

/-- The workbench after some actions. -/
def work (store : Store) (w : Workbench) (actions : List Workbench.Action) :
    Except Panic Workbench :=
  actions.foldlM (step store) w

theorem step_eq (h : w.Safe store) (a : Workbench.Action) :
    step store w a = .ok (w.step store a) := by
  cases a with
  | evaluateCell i p =>
      rw [step, evaluateCell_eq h.table]
      rfl
  | evaluateTable i =>
      rw [step, evaluateTable_eq h.table]
      rfl
  | keep i => rfl
  | putBack i => rfl

theorem work_eq (h : w.Safe store) (actions : List Workbench.Action) :
    work store w actions = .ok (w.run store actions) := by
  induction actions generalizing w with
  | nil => rfl
  | cons a rest ih =>
      rw [work, List.foldlM_cons, step_eq h, ok_bind]
      exact ih (h.step a)

/-- No check fails: not when a source is read, not in whatever is done with its table, and not in
any call after that. Every call ends with a result or an error of its own. -/
theorem no_panic {source : List Char} (hsize : byteLength source < 2 ^ 32) :
    readTable source .empty = .ok (Table.read source .empty) ∧
    ∀ t store, Table.read source .empty = (.ok t, store) → ∀ actions : List Workbench.Action,
      work store (.start t) actions = .ok ((Workbench.start t).run store actions) ∧
      ∀ e : Evaluator,
        let now := ((Workbench.start t).run store actions).table
        (∀ p, evaluateCell store e now p = .ok (e.evaluateCell store now p) ∧
          Declared (e.evaluateCell store now p).1) ∧
        evaluateTable store e now = .ok (e.evaluateTable store now) ∧
          Declared (e.evaluateTable store now).1 := by
  refine ⟨readTable_eq (by simpa using hsize), fun t store hread actions => ?_⟩
  have hstore : store.size ≤ 2 ^ 32 := by
    have hle := Table.size_le_of_read hread
    rw [Formula.Store.size_empty] at hle
    omega
  have hsafe := Table.safe_of_read hsize hread hstore
  have hstart : (Workbench.start t).Safe store := ⟨hsafe, fun _ => hsafe⟩
  have hnow := (hstart.run actions).table
  refine ⟨work_eq hstart actions, fun e => ⟨fun p => ⟨evaluateCell_eq hnow e p, ?_⟩,
    evaluateTable_eq hnow e, ?_⟩⟩
  · obtain ⟨r, σ', hcall, _⟩ := evaluateCell_runs hnow.rooted e p
    rw [hcall]
    exact declared_mapError r
  · obtain ⟨r, σ', hcall, _⟩ := evaluateTable_runs hnow.rooted e
    rw [hcall]
    exact declared_mapError _

theorem no_panic_after_failure :
    ∃ t store, Table.read "=A1+Z99\n=2+A0|x".toList .empty = (.ok t, store) ∧
      ∃ w, work store (.start t) [.evaluateCell 0 ⟨1, 0⟩, .evaluateTable 1] = .ok w := by
  have hcheck : Table.readsTo "=A1+Z99\n=2+A0|x".toList (fun _ _ => true) = true := by
    decide +kernel
  obtain ⟨t, store, hread, _⟩ := Table.exists_of_readsTo hcheck
  exact ⟨t, store, hread, _, ((no_panic (by decide)).2 t store hread _).1⟩

end Checked

end PipeSheet
