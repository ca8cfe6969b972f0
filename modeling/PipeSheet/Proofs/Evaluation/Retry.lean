import PipeSheet.Proofs.Evaluation.Noninterference
/-!
# PipeSheet.Proofs.Evaluation.Retry

**Asked again, a cell with a value gives it again, and one that failed meets the marks of its
failure.**

A failure leaves the formula that was asked for in progress, so the second answer about it is a
cycle at that formula, whatever the first one was. Only a failure for which no formula was begun is
repeated, and a cycle through the formula itself: its path was cut out of the path of the evaluator,
which is still the same when the formula is met again (`Runs.eq_cycleTo`).

* `evaluateCell_again`: what the second answer is, and when it is the first one;
* `evaluateCell_again_differs`: a cycle is reported on a sheet without cycles.
-/

namespace PipeSheet

open Formula (Store)
open Relation (ReflTransGen TransGen)
open Sheet (Subject)

variable {store : Store} {s : Sheet} {t : Table} {σ σ' : EvalState} {o : Option Position}
  {x : Subject} {p q : Position} {f : FormulaCell}

/-! ### What a failure leaves -/

/-- The path of a cycle is the one that the evaluator still shows when the run is over. -/
theorem Runs.eq_cycleTo {r : Except EvalError Float} {path : List Position}
    (h : Runs store o x σ r σ') (hr : r = .error (.circularDependency q path)) :
    path = σ'.evaluator.cycleTo q := by
  induction h with
  | outside _ => cases hr
  | empty _ => cases hr
  | number _ => cases hr
  | text _ => cases hr
  | cached _ _ => cases hr
  | cycle _ _ =>
      cases hr
      rfl
  | done _ _ _ _ _ => cases hr
  | broken _ _ _ _ ih => exact ih hr
  | literal => cases hr
  | reference _ ih => exact ih hr
  | plus _ _ _ _ => cases hr
  | plusLeft _ ih => exact ih hr
  | plusRight _ _ _ ih => exact ih hr

/-- A formula whose evaluation fails is in progress afterwards. -/
theorem Runs.inProgress_of_error {err : EvalError} (h : Runs store o (.place p) σ (.error err) σ')
    (hp : σ.table.get? p = some (.formula f)) :
    ∃ f', σ'.table.get? p = some (.formula f') ∧ f'.status = .inProgress := by
  cases h with
  | outside h' => cases h'.symm.trans hp
  | text h' => cases h'.symm.trans hp
  | cycle h' hs => exact ⟨_, h', hs⟩
  | broken h' hs _ hrun =>
      exact ⟨_, hrun.later.get?_of_begun (Table.get?_setFormula_self h' .inProgress 0) (by simp),
        rfl⟩

/-- Without a formula in its place, a run changes nothing. -/
theorem Runs.eq_of_not_formula {r : Except EvalError Float} (h : Runs store o (.place p) σ r σ')
    (hp : ∀ f, σ.table.get? p ≠ some (.formula f)) : σ' = σ := by
  cases h with
  | outside _ => rfl
  | empty _ => rfl
  | number _ => rfl
  | text _ => rfl
  | cached h' _ => exact absurd h' (hp _)
  | cycle _ _ => rfl
  | done h' _ _ _ => exact absurd h' (hp _)
  | broken h' _ _ _ => exact absurd h' (hp _)

/-- A formula in progress is a cycle. -/
theorem evaluateCell_of_inProgress (hp : t.get? p = some (.formula f)) (hs : f.status = .inProgress)
    (store : Store) (e : Evaluator) : e.evaluateCell store t p =
      (.error (.error (.circularDependency p (e.cycleTo p))), e, t) := by
  rw [Evaluator.evaluateCell, Evaluator.run_eq_exec, resolve,
    EvalM.exec_bind_of_ok (EvalM.exec_get _)]
  simp only [hp, hs]
  rfl

theorem Sound.isFormula_iff {stack : List Position} (h : Sound store s stack t) :
    s.IsFormula p ↔ ∃ f, t.get? p = some (.formula f) := by
  rw [Sheet.IsFormula, ← h.sheet_eq, t.at?_sheet]
  constructor
  · rintro ⟨tree, htree⟩
    obtain ⟨cell, hcell, hcontent⟩ := Option.map_eq_some_iff.1 htree
    cases cell with
    | formula f => exact ⟨f, hcell⟩
    | _ => cases hcontent
  · rintro ⟨f, hf⟩
    rw [hf]
    exact ⟨_, rfl⟩

/-! ### Asking twice -/

section Twice

variable {e : Evaluator} {halt : Halt}

/-- Without a formula in its place, a call changes nothing. -/
theorem snd_evaluateCell_of_not_formula (h : t.AtRest store s) (hp : ¬ s.IsFormula p) :
    (e.evaluateCell store t p).2 = (e, t) := by
  obtain ⟨r, σ', hcall, hrun⟩ := evaluateCell_runs h.rooted e p
  have hcell : ∀ f, t.get? p ≠ some (.formula f) := fun f hf =>
    hp (h.sound.isFormula_iff.2 ⟨f, hf⟩)
  rw [hcall, hrun.eq_of_not_formula hcell]

/-- Asked again after a failure, a formula is a cycle, and nothing changes any more. -/
theorem evaluateCell_after_error (h : t.AtRest store s) (hp : s.IsFormula p)
    (hfirst : (e.evaluateCell store t p).1 = .error halt) :
    let (_, e', t') := e.evaluateCell store t p
    e'.evaluateCell store t' p =
      (.error (.error (.circularDependency p (e'.cycleTo p))), e', t') := by
  obtain ⟨f, hf⟩ := h.sound.isFormula_iff.1 hp
  obtain ⟨r, σ', hcall, hrun⟩ := evaluateCell_runs h.rooted e p
  rw [hcall] at hfirst ⊢
  obtain ⟨err, rfl, _⟩ := exists_of_mapError hfirst
  obtain ⟨f', hf', hs⟩ := hrun.inProgress_of_error hf
  exact evaluateCell_of_inProgress hf' hs store _

/-- The path of a cycle that a call reports is the one that its evaluator still shows. -/
theorem eq_cycleTo_of_evaluateCell (h : t.AtRest store s) {path : List Position}
    (hfirst : (e.evaluateCell store t p).1 = .error (.error (.circularDependency q path))) :
    path = (e.evaluateCell store t p).2.1.cycleTo q := by
  obtain ⟨r, σ', hcall, hrun⟩ := evaluateCell_runs h.rooted e p
  rw [hcall] at hfirst ⊢
  obtain ⟨err, rfl, herr⟩ := exists_of_mapError hfirst
  cases herr
  exact hrun.eq_cycleTo rfl

end Twice

/-- Whatever has happened to a table, a cell that gives a value gives it again. A cell that fails
fails again: without a formula just as before, and with one by a cycle at that formula, while
nothing changes any more. So the second answer is the first one exactly if that is a value, or is
not about a formula, or is a cycle at the formula already. -/
theorem evaluateCell_again {source : List Char} {before : Store}
    (hread : Table.read source before = (.ok t, store)) (hstore : store.size < 2 ^ 32)
    (actions : List Workbench.Action) (e : Evaluator) (p : Position) :
    let now := ((Workbench.start t).run store actions).table
    let first := e.evaluateCell store now p
    let second := first.2.1.evaluateCell store first.2.2 p
    (∀ v, first.1 = .ok v → second.1 = .ok v) ∧
    (∀ halt, first.1 = .error halt →
      (¬ (t.sheet store).IsFormula p → second = first) ∧
      ((t.sheet store).IsFormula p →
        second = (.error (.error (.circularDependency p (first.2.1.cycleTo p))), first.2))) ∧
    (second.1 = first.1 ↔ (∃ v, first.1 = .ok v) ∨ ¬ (t.sheet store).IsFormula p ∨
      ∃ path, first.1 = .error (.error (.circularDependency p path))) := by
  intro now first second
  have hreads := Table.readsAs_of_size_le hread (Nat.le_of_lt hstore)
  have hrest : now.AtRest store (t.sheet store) :=
    ((Workbench.atRest_start hreads.atRest).run actions).table
  have hvalue : ∀ v, first.1 = .ok v → second.1 = .ok v := by
    intro v hv
    have hrest' : first.2.2.AtRest store (t.sheet store) := hrest.evaluateCell e p
    exact (evaluateCell_eq_ok_iff hrest' _ p v).2 ((evaluateCell_eq_ok_iff hrest e p v).1 hv)
  have hother : ¬ (t.sheet store).IsFormula p → second = first := by
    intro hno
    have hsame : first.2 = (e, now) := snd_evaluateCell_of_not_formula hrest hno
    show first.2.1.evaluateCell store first.2.2 p = first
    rw [hsame]
  have hformula : ∀ halt, first.1 = .error halt → (t.sheet store).IsFormula p →
      second = (.error (.error (.circularDependency p (first.2.1.cycleTo p))), first.2) :=
    fun halt hhalt hp => evaluateCell_after_error hrest hp hhalt
  refine ⟨hvalue, fun halt hhalt => ⟨hother, hformula halt hhalt⟩, ?_⟩
  constructor
  · intro hsame
    cases hresult : first.1 with
    | ok v => exact .inl ⟨v, rfl⟩
    | error halt =>
        by_cases hp : (t.sheet store).IsFormula p
        · rw [hformula halt hresult hp] at hsame
          exact .inr (.inr ⟨_, hresult.symm.trans hsame.symm⟩)
        · exact .inr (.inl hp)
  · rintro (⟨v, hv⟩ | hno | ⟨path, hpath⟩)
    · rw [hv, hvalue v hv]
    · rw [hother hno]
    · by_cases hp : (t.sheet store).IsFormula p
      · have hshown : path = first.2.1.cycleTo p := eq_cycleTo_of_evaluateCell hrest hpath
        rw [hformula _ hpath hp, hpath, hshown]
      · rw [hother hp]

/-- A cell on a cycle gives one answer twice, and a cell that only leads there does not. -/
theorem evaluateCell_again_of_cycle :
    ∃ t store, Table.read "=B0+1|=A0\n=A0".toList .empty = (.ok t, store) ∧ store.size < 2 ^ 32 ∧
      let now := ((Workbench.start t).run store [.evaluateCell 0 ⟨0, 0⟩]).table
      let first (p : Position) := ({} : Evaluator).evaluateCell store now p
      let second (p : Position) := (first p).2.1.evaluateCell store (first p).2.2 p
      (second ⟨0, 0⟩).1 = (first ⟨0, 0⟩).1 ∧ (second ⟨1, 0⟩).1 ≠ (first ⟨1, 0⟩).1 := by
  have hcheck : Table.readsTo "=B0+1|=A0\n=A0".toList (fun t store =>
      let now := ((Workbench.start t).run store [.evaluateCell 0 ⟨0, 0⟩]).table
      let first (p : Position) := (({} : Evaluator).evaluateCell store now p).1
      decide (store.size < 2 ^ 32 ∧
        first ⟨0, 0⟩ = .error (.error (.circularDependency ⟨0, 0⟩ [⟨0, 0⟩])) ∧
        first ⟨1, 0⟩ = .error (.error (.circularDependency ⟨0, 0⟩ [⟨1, 0⟩, ⟨0, 0⟩])) ∧
        (t.sheet store).at? ⟨1, 0⟩ = some (.formula (.ref ⟨0, 0⟩)))) = true := by decide +kernel
  obtain ⟨t, store, hread, hcheck⟩ := Table.exists_of_readsTo hcheck
  obtain ⟨hstore, hcycle, hleads, hat⟩ := of_decide_eq_true hcheck
  refine ⟨t, store, hread, hstore, ?_, fun hsame => ?_⟩
  · exact (evaluateCell_again hread hstore _ {} ⟨0, 0⟩).2.2.2 (.inr (.inr ⟨_, hcycle⟩))
  · rcases (evaluateCell_again hread hstore _ {} ⟨1, 0⟩).2.2.1 hsame with
      ⟨v, hv⟩ | hno | ⟨path, hpath⟩
    · cases hleads.symm.trans hv
    · exact hno ⟨_, hat⟩
    · cases hleads.symm.trans hpath

/-- On a sheet without cycles, the second answer of a formula that refers to a text is a cycle. -/
theorem evaluateCell_again_differs :
    ∃ t store, Table.read "=B0|x".toList .empty = (.ok t, store) ∧ (t.sheet store).Acyclic ∧
      let first := ({} : Evaluator).evaluateCell store t ⟨0, 0⟩
      let second := first.2.1.evaluateCell store first.2.2 ⟨0, 0⟩
      first.1 = .error (.error (.typeMismatch ⟨0, 1⟩ (some ⟨0, 0⟩) ['x'])) ∧
      second.1 = .error (.error (.circularDependency ⟨0, 0⟩ [⟨0, 0⟩, ⟨0, 0⟩])) := by
  have hcheck : Table.readsTo "=B0|x".toList (fun t store =>
      let first := ({} : Evaluator).evaluateCell store t ⟨0, 0⟩
      let second := first.2.1.evaluateCell store first.2.2 ⟨0, 0⟩
      decide (t.rows = 1 ∧ t.cols = 2 ∧
        (t.sheet store).at? ⟨0, 0⟩ = some (.formula (.ref ⟨0, 1⟩)) ∧
        (t.sheet store).at? ⟨0, 1⟩ = some (.text ['x']) ∧
        first.1 = .error (.error (.typeMismatch ⟨0, 1⟩ (some ⟨0, 0⟩) ['x'])) ∧
        second.1 = .error (.error (.circularDependency ⟨0, 0⟩ [⟨0, 0⟩, ⟨0, 0⟩])))) = true := by
    decide +kernel
  obtain ⟨t, store, hread, hcheck⟩ := Table.exists_of_readsTo hcheck
  obtain ⟨hrows, hcols, hformula, htext, hfirst, hsecond⟩ := of_decide_eq_true hcheck
  refine ⟨t, store, hread, Sheet.acyclic_of_no_edge fun p q hedge => ?_, hfirst, hsecond⟩
  obtain ⟨⟨tree, hp, hq⟩, tree', hq'⟩ := hedge
  obtain ⟨row, col⟩ := p
  have hin : row < 1 ∧ col < 2 := hrows ▸ hcols ▸ (t.sheet store).inside_of_at? hp
  obtain rfl : row = 0 := by omega
  obtain rfl | rfl : col = 0 ∨ col = 1 := by omega
  · cases hp.symm.trans hformula
    cases List.mem_singleton.1 hq
    cases hq'.symm.trans htext
  · cases hp.symm.trans htext

end PipeSheet
