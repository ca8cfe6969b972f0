import PipeSheet.Proofs.Evaluation.History
import PipeSheet.Proofs.Evaluation.Naive
import PipeSheet.Proofs.Sheet.Witness
/-!
# PipeSheet.Proofs.Evaluation.Failure

**The first error of a session can be seen in the table.**

As long as no call has failed, no formula is left in progress and the path of every evaluator is
empty. So a call begins with an empty stack and has the result of the naive evaluator, whose errors
are witnessed by what the sheet shows. After a failure this is lost: the path that is left in an
evaluator would stand at the beginning of the next cycle.

* `Table.Witnesses`: what an error says, in the terms of a table;
* `Workbench.allSucceed`: actions of which no call fails;
* `Workbench.Quiet`: the invariant of such actions;
* `evaluation_error_witnessed`: the law.
-/

namespace PipeSheet

open Formula (Store)
open Relation (ReflTransGen)
open Text (byteLength)

variable {store : Store} {s : Sheet} {t : Table} {e : Evaluator} {p : Position}

/-! ### Errors about a table -/

/-- The table shows what the error says, when `asked` was asked for, or no cell in particular. -/
def Table.Witnesses (store : Store) (t : Table) (asked : Option Position) : EvalError → Prop
  | .circularDependency cell path => (t.sheet store).Cycle cell path
  | .typeMismatch cell origin content =>
    (∃ span, t.get? cell = some (.text span content) ∧ t.text? span = some content) ∧
      (t.sheet store).LedBy asked origin cell
  | .outOfBounds cell origin rows cols =>
    ¬ t.Contains cell ∧ rows = t.rows ∧ cols = t.cols ∧ (t.sheet store).LedBy asked origin cell

/-- What the sheet of a table shows is in the table. -/
theorem Table.ReadsAs.witnesses {source : List Char} {asked : Option Position} {err : EvalError}
    (h : t.ReadsAs source store) (hsize : byteLength source < 2 ^ 32)
    (hshown : (t.sheet store).Witnesses asked err) : t.Witnesses store asked err := by
  cases err with
  | circularDependency cell path => exact hshown
  | typeMismatch cell origin content =>
      obtain ⟨hat, hled⟩ := hshown
      rw [Table.at?_sheet] at hat
      obtain ⟨c, hcell, hcontent⟩ := Option.map_eq_some_iff.1 hat
      cases c with
      | text span chars =>
          cases hcontent
          obtain ⟨_, _, _, htext⟩ := h.text hsize hcell
          exact ⟨⟨span, hcell, htext⟩, hled⟩
      | _ => cases hcontent
  | outOfBounds cell origin rows cols =>
      obtain ⟨hat, hrows, hcols, hled⟩ := hshown
      refine ⟨fun hin => ?_, hrows, hcols, hled⟩
      obtain ⟨c, hcell⟩ := Table.exists_get?_of_contains hin
      rw [Table.at?_sheet, hcell] at hat
      cases hat

/-! ### Calls while nothing has failed -/

/-- No formula is in progress. -/
def Table.Quiet (t : Table) : Prop :=
  ∀ p f, t.get? p = some (.formula f) → f.status ≠ .inProgress

theorem Table.Quiet.clean (h : t.Quiet) (he : e.path = []) : Clean [] ⟨t, e⟩ :=
  ⟨he, fun hp => iff_of_false (h _ _ hp) List.not_mem_nil⟩

theorem Clean.quiet {σ : EvalState} (h : Clean [] σ) : σ.table.Quiet :=
  fun _ _ hp hs => List.not_mem_nil ((h.inProgress_iff hp).1 hs)

/-- A run over places that succeeds ends in a clean state. -/
theorem RunsAll.clean {ps : List Position} {r : Except EvalError Unit} {σ σ' : EvalState}
    (h : RunsAll store ps σ r σ') (hr : r = .ok ()) (hsound : Sound store s [] σ.table)
    (hclean : Clean [] σ) : Clean [] σ' := by
  induction h with
  | nil => exact hclean
  | skip _ _ ih => exact ih hr hsound hclean
  | next _ hrun _ ih =>
      obtain ⟨_, hclean₁⟩ := hrun.eq_naive rfl hsound hclean (Sheet.leads_nil _)
      obtain ⟨hsound₁, _⟩ := hrun.sound hsound (Sheet.leads_nil _)
      exact ih hr hsound₁ (hclean₁ _ rfl)
  | stop _ _ => cases hr

/-- A cell has the result of the naive evaluator. -/
theorem Clean.evaluateCell_eq (h : Clean [] ⟨t, e⟩) (hrest : t.AtRest store s) (p : Position) :
    (e.evaluateCell store t p).1 = (s.naive [] p).mapError .error := by
  obtain ⟨r, σ, hcall, hrun⟩ := evaluateCell_runs hrest.rooted e p
  obtain ⟨hnaive, _⟩ := hrun.eq_naive rfl hrest.sound h (Sheet.leads_nil _)
  rw [hcall, ← hnaive]
  rfl

theorem Clean.evaluateCell_error (h : Clean [] ⟨t, e⟩) (hrest : t.AtRest store s) {halt : Halt}
    (herror : (e.evaluateCell store t p).1 = .error halt) :
    ∃ err, halt = .error err ∧ s.naive [] p = .error err := by
  rw [h.evaluateCell_eq hrest] at herror
  cases hnaive : s.naive [] p with
  | ok v =>
      rw [hnaive] at herror
      cases herror
  | error err =>
      rw [hnaive] at herror
      cases herror
      exact ⟨err, rfl, rfl⟩

/-- The formulas that fail are those on which the naive evaluator fails. -/
theorem Sheet.failure?_eq_some_iff {err : EvalError} :
    s.failure? p = some err ↔ s.IsFormula p ∧ s.naive [] p = .error err := by
  constructor
  · intro h
    unfold failure? at h
    split at h
    · next tree err' hp hnaive =>
      cases h
      exact ⟨⟨tree, hp⟩, hnaive⟩
    · cases h
  · intro ⟨⟨tree, hp⟩, hnaive⟩
    rw [failure?_of_formula hp, hnaive]

/-- The first failure is that of a formula, and the formulas before it have values. -/
theorem Sheet.exists_of_findSome?_failure? {ps : List Position} {err : EvalError}
    (h : ps.findSome? s.failure? = some err) :
    ∃ above p below, ps = above ++ p :: below ∧ s.IsFormula p ∧ s.naive [] p = .error err ∧
      ∀ q ∈ above, s.IsFormula q → ∃ v, s.naive [] q = .ok v := by
  obtain ⟨above, p, below, hps, hfails, habove⟩ := List.findSome?_eq_some_iff.1 h
  obtain ⟨hp, hnaive⟩ := failure?_eq_some_iff.1 hfails
  refine ⟨above, p, below, hps, hp, hnaive, fun q hq hformula => ?_⟩
  cases hvalue : s.naive [] q with
  | ok v => exact ⟨v, rfl⟩
  | error err' =>
      have hfailure := failure?_eq_some_iff.2 ⟨hformula, hvalue⟩
      rw [habove q hq] at hfailure
      cases hfailure

/-- The table has the first failure of the naive evaluator, if there is one. -/
theorem Clean.evaluateTable_error (h : Clean [] ⟨t, e⟩) (hrest : t.AtRest store s) {halt : Halt}
    (herror : (e.evaluateTable store t).1 = .error halt) :
    ∃ err, halt = .error err ∧ t.positions.findSome? s.failure? = some err := by
  obtain ⟨r, σ, hcall, hrun⟩ := evaluateTable_runs hrest.rooted e
  have hnaive := hrun.eq_naive hrest.rooted hrest.sound h
  rw [hcall] at herror
  cases hfirst : t.positions.findSome? s.failure? with
  | some err =>
      rw [hfirst] at hnaive
      subst hnaive
      cases herror
      exact ⟨err, rfl, rfl⟩
  | none =>
      rw [hfirst] at hnaive
      subst hnaive
      cases herror

/-- A call that succeeds leaves a clean state. -/
theorem Clean.evaluateCell (h : Clean [] ⟨t, e⟩) (hrest : t.AtRest store s)
    (hok : (e.evaluateCell store t p).1.isOk = true) :
    Clean [] ⟨(e.evaluateCell store t p).2.2, (e.evaluateCell store t p).2.1⟩ := by
  obtain ⟨r, σ, hcall, hrun⟩ := evaluateCell_runs hrest.rooted e p
  obtain ⟨_, hclean⟩ := hrun.eq_naive rfl hrest.sound h (Sheet.leads_nil _)
  rw [hcall] at hok ⊢
  cases r with
  | ok v => exact hclean v rfl
  | error err => cases hok

theorem Clean.evaluateTable (h : Clean [] ⟨t, e⟩) (hrest : t.AtRest store s)
    (hok : (e.evaluateTable store t).1.isOk = true) :
    Clean [] ⟨(e.evaluateTable store t).2.2, (e.evaluateTable store t).2.1⟩ := by
  obtain ⟨r, σ, hcall, hrun⟩ := evaluateTable_runs hrest.rooted e
  rw [hcall] at hok ⊢
  cases r with
  | ok u => exact hrun.clean rfl hrest.sound h
  | error err => cases hok

/-! ### Workbenches on which nothing has failed -/

namespace Workbench

variable {w : Workbench}

/-- Whether an action is a call with a result, or no call. -/
def succeeds (store : Store) (w : Workbench) : Action → Bool
  | .evaluateCell i p => ((w.evaluators i).evaluateCell store w.table p).1.isOk
  | .evaluateTable i => ((w.evaluators i).evaluateTable store w.table).1.isOk
  | .keep _ => true
  | .putBack _ => true

/-- Whether all calls among some actions have results. -/
def allSucceed (store : Store) (w : Workbench) : List Action → Bool
  | [] => true
  | a :: rest => w.succeeds store a && (w.step store a).allSucceed store rest

/-- Nothing on the bench is in progress. -/
structure Quiet (w : Workbench) : Prop where
  table : w.table.Quiet
  copies : ∀ i, (w.copies i).Quiet
  path_eq : ∀ i, (w.evaluators i).path = []

theorem Quiet.clean (h : w.Quiet) (i : Nat) : Clean [] ⟨w.table, w.evaluators i⟩ :=
  h.table.clean (h.path_eq i)

/-- An evaluator that has worked without a failure has left nothing in progress. -/
theorem Quiet.worked (h : w.Quiet) (i : Nat) (hclean : Clean [] ⟨t, e⟩) :
    (w.worked i e t).Quiet := by
  refine ⟨hclean.quiet, h.copies, fun j => ?_⟩
  show Evaluator.path (if j = i then e else w.evaluators j) = []
  split
  · exact hclean.path_eq
  · exact h.path_eq j

theorem Quiet.step (h : w.Quiet) (hrest : w.AtRest store s) {a : Action}
    (hok : w.succeeds store a = true) : (w.step store a).Quiet := by
  cases a with
  | evaluateCell i p => exact h.worked i ((h.clean i).evaluateCell hrest.table hok)
  | evaluateTable i => exact h.worked i ((h.clean i).evaluateTable hrest.table hok)
  | keep i => exact ⟨h.table, copies_keep h.table h.copies i, h.path_eq⟩
  | putBack i => exact ⟨h.copies i, h.copies, h.path_eq⟩

theorem Quiet.run (h : w.Quiet) (hrest : w.AtRest store s) {actions : List Action}
    (hok : w.allSucceed store actions = true) : (w.run store actions).Quiet := by
  induction actions generalizing w with
  | nil => exact h
  | cons a rest ih =>
      obtain ⟨ha, hothers⟩ := Bool.and_eq_true_iff.1 hok
      exact ih (h.step hrest ha) (hrest.step a) hothers

end Workbench

/-! ### The law -/

section Calls

variable {source : List Char} {before : Store}

/-- As long as no call has failed, whatever else has happened: an error says what the table shows,
and references lead from the cell that is evaluated to the one that the error is about. For the
whole table that cell is the first formula, row by row, whose evaluation fails. -/
theorem evaluation_error_witnessed (hsource : byteLength source < 2 ^ 32)
    (hread : Table.read source before = (.ok t, store)) (hstore : store.size < 2 ^ 32)
    (actions : List Workbench.Action)
    (hok : (Workbench.start t).allSucceed store actions = true) (i : Nat) :
    let w := (Workbench.start t).run store actions
    let evaluate := fun p => ((w.evaluators i).evaluateCell store w.table p).1
    (∀ p halt, evaluate p = .error halt → ∃ err, halt = .error err ∧
      t.Witnesses store (some p) err ∧ ReflTransGen (t.sheet store).References p err.cell) ∧
    ∀ halt, ((w.evaluators i).evaluateTable store w.table).1 = .error halt →
      ∃ err, halt = .error err ∧ t.Witnesses store none err ∧
        ∃ above p below, t.positions = above ++ p :: below ∧ (t.sheet store).IsFormula p ∧
          (∀ q ∈ above, (t.sheet store).IsFormula q → ∃ v, evaluate q = .ok v) ∧
          evaluate p = .error (.error err) ∧
          ReflTransGen (t.sheet store).References p err.cell := by
  have hreads := Table.readsAs_of_size_le hread (Nat.le_of_lt hstore)
  have hstart := Workbench.atRest_start hreads.atRest
  have hquiet : (Workbench.start t).Quiet :=
    ⟨hreads.clean.quiet, fun _ => hreads.clean.quiet, fun _ => rfl⟩
  intro w evaluate
  have hrest : w.table.AtRest store (t.sheet store) := (hstart.run actions).table
  have hclean : Clean [] ⟨w.table, w.evaluators i⟩ := (hquiet.run hstart hok).clean i
  have heval : ∀ p, evaluate p = ((t.sheet store).naive [] p).mapError .error :=
    hclean.evaluateCell_eq hrest
  refine ⟨fun p halt herror => ?_, fun halt herror => ?_⟩
  · obtain ⟨err, rfl, hnaive⟩ := hclean.evaluateCell_error hrest herror
    have hshown := Sheet.witnesses_of_naive hnaive trivial List.nodup_nil fun _ => rfl
    exact ⟨err, rfl, hreads.witnesses hsource hshown, Sheet.reaches_of_naive hnaive⟩
  · obtain ⟨err, rfl, hfirst⟩ := hclean.evaluateTable_error hrest herror
    have hplaces : w.table.positions = t.positions := congrArg Sheet.places hrest.sound.sheet_eq
    rw [hplaces] at hfirst
    obtain ⟨above, p, below, hpositions, ⟨tree, hp⟩, hnaive, habove⟩ :=
      Sheet.exists_of_findSome?_failure? hfirst
    have hshown := Sheet.witnesses_of_naive_formula hp hnaive
    refine ⟨err, rfl, hreads.witnesses hsource hshown, above, p, below, hpositions, ⟨tree, hp⟩,
      fun q hq hformula => ?_, ?_, Sheet.reaches_of_naive hnaive⟩
    · obtain ⟨v, hv⟩ := habove q hq hformula
      exact ⟨v, by rw [heval, hv]; rfl⟩
    · rw [heval, hnaive]
      rfl

/-- Two formulas need each other, and the one that is evaluated first is on the way to them. -/
theorem evaluation_error_witnessed_of_cycle :
    ∃ t store, Table.read "=1+2\n=A2\n=A3+1\n=A0+A2".toList .empty = (.ok t, store) ∧
      store.size < 2 ^ 32 ∧ (Workbench.start t).allSucceed store [.evaluateCell 0 ⟨0, 0⟩] = true ∧
      t.Witnesses store none
        (.circularDependency ⟨2, 0⟩ [⟨2, 0⟩, ⟨3, 0⟩, ⟨2, 0⟩]) := by
  let actions : List Workbench.Action := [.evaluateCell 0 ⟨0, 0⟩]
  have hcheck : Table.readsTo "=1+2\n=A2\n=A3+1\n=A0+A2".toList (fun t store =>
      let w := (Workbench.start t).run store actions
      decide (store.size < 2 ^ 32 ∧ (Workbench.start t).allSucceed store actions = true ∧
        ((w.evaluators 0).evaluateTable store w.table).1 =
          .error (.error (.circularDependency ⟨2, 0⟩ [⟨2, 0⟩, ⟨3, 0⟩, ⟨2, 0⟩])))) = true := by
    decide +kernel
  obtain ⟨t, store, hread, hcheck⟩ := Table.exists_of_readsTo hcheck
  obtain ⟨hstore, hok, herror⟩ := of_decide_eq_true hcheck
  obtain ⟨err, herr, hwitnesses, _⟩ :=
    (evaluation_error_witnessed (by decide) hread hstore actions hok 0).2 _ herror
  cases herr
  exact ⟨t, store, hread, hstore, hok, hwitnesses⟩

end Calls

end PipeSheet
