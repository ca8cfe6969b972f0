import PipeSheet.Evaluation.Session
import PipeSheet.Proofs.Evaluation.Meaning
/-!
# PipeSheet.Proofs.Evaluation.History

**What succeeds does not depend on what was asked before.**

On a workbench lies one table. Any number of evaluators take turns at it, copies of it are kept and
put back, and a failed call is followed by others, which meet the formulas it left in progress and
the path it left in its evaluator. All tables on the bench are at rest at all times, and a table at
rest answers by the values of its sheet, which never changes.

A session has one evaluator and one copy at a time. It is a workbench on which a new evaluator takes
over from the last one (`Session.exists_bench`).

* `Workbench`, `Workbench.step`, `Workbench.run`: the state, one action and a list of them;
* `Workbench.AtRest`: the invariant of a workbench;
* `evaluate_after_history`: every call after any actions.
-/

namespace PipeSheet

open Formula (Store)

/-! ### The workbench -/

/-- A table, the evaluators that work on it, and the copies of it that were kept. -/
structure Workbench where
  table : Table
  evaluators : Nat → Evaluator
  copies : Nat → Table

namespace Workbench

/-- What may happen on a workbench. Evaluators and copies have numbers. -/
inductive Action where
  | evaluateCell (evaluator : Nat) (p : Position)
  | evaluateTable (evaluator : Nat)
  | keep (copy : Nat)
  | putBack (copy : Nat)

/-- The workbench with a table on it, and nothing done yet. -/
def start (t : Table) : Workbench where
  table := t
  evaluators _ := {}
  copies _ := t

/-- An evaluator has worked on the table. -/
def worked (w : Workbench) (i : Nat) (e : Evaluator) (t : Table) : Workbench where
  table := t
  evaluators j := if j = i then e else w.evaluators j
  copies := w.copies

/-- One action. -/
def step (store : Store) (w : Workbench) : Action → Workbench
  | .evaluateCell i p =>
    let (_, e, t) := (w.evaluators i).evaluateCell store w.table p
    w.worked i e t
  | .evaluateTable i =>
    let (_, e, t) := (w.evaluators i).evaluateTable store w.table
    w.worked i e t
  | .keep i => { w with copies := fun j => if j = i then w.table else w.copies j }
  | .putBack i => { w with table := w.copies i }

/-- The workbench after some actions. -/
def run (store : Store) (w : Workbench) (actions : List Action) : Workbench :=
  actions.foldl (step store) w

variable {store : Store} {s : Sheet} {w : Workbench}

/-- What holds of the table and of all copies holds of all copies after one more is kept. -/
theorem copies_keep {P : Table → Prop} (htable : P w.table) (hcopies : ∀ i, P (w.copies i))
    (i j : Nat) : P ((w.step store (.keep i)).copies j) := by
  show P (if j = i then w.table else w.copies j)
  split
  · exact htable
  · exact hcopies j

/-- What calls keep, whether they succeed or fail, one action keeps of all tables on the bench. -/
theorem step_keeps {P : Table → Prop}
    (hcell : ∀ (t : Table) (e : Evaluator) (p : Position), P t → P (e.evaluateCell store t p).2.2)
    (htable : ∀ (t : Table) (e : Evaluator), P t → P (e.evaluateTable store t).2.2)
    (h : P w.table) (hcopies : ∀ i, P (w.copies i)) (a : Action) :
    P (w.step store a).table ∧ ∀ i, P ((w.step store a).copies i) := by
  cases a with
  | evaluateCell i p => exact ⟨hcell _ _ _ h, hcopies⟩
  | evaluateTable i => exact ⟨htable _ _ h, hcopies⟩
  | keep i => exact ⟨h, copies_keep h hcopies i⟩
  | putBack i => exact ⟨hcopies i, hcopies⟩

/-- What calls keep, whether they succeed or fail, holds of all tables on the bench at all times. -/
theorem run_induction {P : Table → Prop}
    (hcell : ∀ (t : Table) (e : Evaluator) (p : Position), P t → P (e.evaluateCell store t p).2.2)
    (htable : ∀ (t : Table) (e : Evaluator), P t → P (e.evaluateTable store t).2.2)
    (h : P w.table) (hcopies : ∀ i, P (w.copies i)) (actions : List Action) :
    P (w.run store actions).table ∧ ∀ i, P ((w.run store actions).copies i) := by
  induction actions generalizing w with
  | nil => exact ⟨h, hcopies⟩
  | cons a rest ih =>
      obtain ⟨htable', hcopies'⟩ := step_keeps hcell htable h hcopies a
      exact ih htable' hcopies'

/-- All tables on the bench are at rest. -/
structure AtRest (store : Store) (s : Sheet) (w : Workbench) : Prop where
  table : w.table.AtRest store s
  copies : ∀ i, (w.copies i).AtRest store s

theorem AtRest.step (h : w.AtRest store s) (a : Action) : (w.step store a).AtRest store s := by
  obtain ⟨htable, hcopies⟩ := step_keeps (P := (·.AtRest store s))
    (fun _ e p ht => ht.evaluateCell e p) (fun _ e ht => ht.evaluateTable e) h.table h.copies a
  exact ⟨htable, hcopies⟩

theorem atRest_start {t : Table} (h : t.AtRest store s) : (start t).AtRest store s :=
  ⟨h, fun _ => h⟩

theorem AtRest.run (h : w.AtRest store s) (actions : List Action) :
    (w.run store actions).AtRest store s := by
  obtain ⟨htable, hcopies⟩ := run_induction (P := (·.AtRest store s))
    (fun _ e p ht => ht.evaluateCell e p) (fun _ e ht => ht.evaluateTable e)
    h.table h.copies actions
  exact ⟨htable, hcopies⟩

theorem run_append (w : Workbench) (actions more : List Action) :
    w.run store (actions ++ more) = (w.run store actions).run store more :=
  List.foldl_append

end Workbench

/-! ### Calls after any history -/

section Calls

variable {source : List Char} {before store : Store} {t : Table}

/-- Whatever has happened, any evaluator answers with a value or a grid exactly when a new one does
on the table as it was read, and with the same; and the values in the table are those. -/
theorem evaluate_after_history (hread : Table.read source before = (.ok t, store))
    (hstore : store.size < 2 ^ 32) (actions : List Workbench.Action) (e : Evaluator) :
    (∀ p v, (e.evaluateCell store ((Workbench.start t).run store actions).table p).1 = .ok v ↔
      (({} : Evaluator).evaluateCell store t p).1 = .ok v) ∧
    (∀ g, (e.evaluateTable store ((Workbench.start t).run store actions).table).1 = .ok g ↔
      (({} : Evaluator).evaluateTable store t).1 = .ok g) ∧
    ∀ p f, ((Workbench.start t).run store actions).table.get? p = some (.formula f) →
      f.status = .evaluated → (({} : Evaluator).evaluateCell store t p).1 = .ok f.value := by
  have hreads := Table.readsAs_of_size_le hread (Nat.le_of_lt hstore)
  have hstart : (Workbench.start t).AtRest store (t.sheet store) :=
    ⟨hreads.atRest, fun _ => hreads.atRest⟩
  have hbench := hstart.run actions
  refine ⟨fun p v => ?_, fun g => ?_, fun p f hp hs => ?_⟩
  · rw [evaluateCell_eq_ok_iff hbench.table, evaluateCell_eq_ok_iff hreads.atRest]
  · rw [evaluateTable_eq_ok_iff hbench.table, evaluateTable_eq_ok_iff hreads.atRest]
  · rw [evaluateCell_eq_ok_iff hreads.atRest]
    exact hbench.table.sound.hasValue hp hs

theorem evaluate_after_history_of_failure :
    ∃ t store, Table.read "=A1\n=2+A0\n=1+2".toList .empty = (.ok t, store) ∧
      store.size < 2 ^ 32 ∧
      (({} : Evaluator).evaluateCell store ((Workbench.start t).run store
        [.evaluateCell 0 ⟨1, 0⟩, .evaluateTable 1]).table ⟨2, 0⟩).1 = .ok 3 := by
  have hcheck : Table.readsTo "=A1\n=2+A0\n=1+2".toList (fun t store => decide (
      store.size < 2 ^ 32 ∧
      (({} : Evaluator).evaluateCell store t ⟨2, 0⟩).1 = .ok 3)) = true := by decide +kernel
  obtain ⟨t, store, hread, hcheck⟩ := Table.exists_of_readsTo hcheck
  obtain ⟨hstore, hvalue⟩ := of_decide_eq_true hcheck
  refine ⟨t, store, hread, hstore, ?_⟩
  exact ((evaluate_after_history hread hstore _ {}).1 _ _).2 hvalue

end Calls

/-! ### Sessions -/

namespace Session

variable {store : Store} {t : Table}

/-- A workbench on which evaluator `i` works and those after it are new, with the copy in place
0. -/
structure OnBench (w : Workbench) (i : Nat) (session : Session) : Prop where
  table_eq : w.table = session.table
  evaluator_eq : w.evaluators i = session.evaluator
  kept_eq : w.copies 0 = session.kept
  new : ∀ j, i < j → w.evaluators j = {}

theorem store_step (session : Session) (request : Request) :
    (session.step request).2.store = session.store := by
  cases request <;> rfl

/-- A request is at most one action. -/
theorem OnBench.step {w : Workbench} {i : Nat} {session : Session} (h : OnBench w i session)
    (request : Request) : ∃ actions j,
      OnBench (w.run session.store actions) j (session.step request).2 := by
  cases request with
  | evaluateCell p =>
      refine ⟨[.evaluateCell i p], i, ?_, ?_, h.kept_eq, fun j hj => ?_⟩
      · show ((w.evaluators i).evaluateCell session.store w.table p).2.2 = _
        rw [h.evaluator_eq, h.table_eq]
        rfl
      · show (if i = i then ((w.evaluators i).evaluateCell session.store w.table p).2.1
          else w.evaluators i) = _
        rw [if_pos rfl, h.evaluator_eq, h.table_eq]
        rfl
      · exact (if_neg (by omega)).trans (h.new j hj)
  | evaluateTable =>
      refine ⟨[.evaluateTable i], i, ?_, ?_, h.kept_eq, fun j hj => ?_⟩
      · show ((w.evaluators i).evaluateTable session.store w.table).2.2 = _
        rw [h.evaluator_eq, h.table_eq]
        rfl
      · show (if i = i then ((w.evaluators i).evaluateTable session.store w.table).2.1
          else w.evaluators i) = _
        rw [if_pos rfl, h.evaluator_eq, h.table_eq]
        rfl
      · exact (if_neg (by omega)).trans (h.new j hj)
  -- The next evaluator is new already, so nothing has to happen on the bench.
  | newEvaluator =>
      exact ⟨[], i + 1, h.table_eq, h.new _ (by omega), h.kept_eq,
        fun j hj => h.new j (by omega)⟩
  | keep => exact ⟨[.keep 0], i, h.table_eq, h.evaluator_eq, h.table_eq, h.new⟩
  | putBack => exact ⟨[.putBack 0], i, h.kept_eq, h.evaluator_eq, h.kept_eq, h.new⟩

/-- What a session has come to is what actions on a workbench come to. -/
theorem exists_bench (store : Store) (t : Table) (requests : List Request) :
    ∃ actions i, OnBench ((Workbench.start t).run store actions) i
      ((Session.start store t).run requests) := by
  have key : ∀ (w : Workbench) (i : Nat) (session : Session), session.store = store →
      OnBench w i session →
      ∃ actions j, OnBench (w.run store actions) j (session.run requests) := by
    induction requests with
    | nil => exact fun w i session _ h => ⟨[], i, h⟩
    | cons request rest ih =>
        intro w i session hstore h
        obtain ⟨first, j, hfirst⟩ := h.step request
        rw [hstore] at hfirst
        have hstore' := (session.store_step request).trans hstore
        obtain ⟨others, k, hothers⟩ := ih _ j _ hstore' hfirst
        refine ⟨first ++ others, k, ?_⟩
        rw [Workbench.run_append]
        exact hothers
  have hstart : OnBench (Workbench.start t) 0 (Session.start store t) :=
    ⟨rfl, rfl, rfl, fun _ _ => rfl⟩
  exact key _ 0 _ rfl hstart

end Session

end PipeSheet
