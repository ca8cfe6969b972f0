import PipeSheet.Proofs.Evaluation.History
/-!
# PipeSheet.Proofs.Evaluation.Frame

**A call changes formulas that references lead to, and nothing else.**

A formula is begun because it was asked for or because a formula that was begun refers to it, so
whatever a run changes lies within reach of its subject (`Runs.frames`), also if the run fails. How
much of what is in reach is evaluated after a success does not follow from the run alone: it meets
formulas that were evaluated before and does not look behind them. So tables have to be *settled*,
in that an evaluated formula refers to evaluated formulas only. Runs keep that, because a formula
ends when everything that it refers to has ended.

* `Sheet.Reaches`, `Sheet.Frames`: the places to which references lead from a subject, and tables
  that differ in no other place;
* `Table.Settled`, `Runs.settled`: the invariant;
* `evaluateCell_changes`: the law.
-/

namespace PipeSheet

open Formula (Store Tree)
open Relation (ReflTransGen)
open Sheet (Subject)

variable {store : Store} {s : Sheet} {t t' t'' : Table} {σ σ' : EvalState} {o : Option Position}
  {x : Subject} {p q : Position} {f : FormulaCell} {lhs rhs tree : Tree}

/-! ### What is in reach -/

namespace Sheet

/-- References lead from what the subject asks for to the place. -/
def Reaches (s : Sheet) (x : Subject) (q : Position) : Prop :=
  ∃ p, x.Asks p ∧ ReflTransGen s.References p q

theorem reaches_place : s.Reaches (.place p) q ↔ ReflTransGen s.References p q := by
  constructor
  · rintro ⟨_, rfl, h⟩
    exact h
  · intro h
    exact ⟨p, rfl, h⟩

/-- The tables have the same cells wherever references from the subject do not lead. -/
def Frames (s : Sheet) (x : Subject) (t t' : Table) : Prop :=
  ∀ q, t'.get? q = t.get? q ∨ s.Reaches x q

namespace Frames

theorem refl (s : Sheet) (x : Subject) (t : Table) : s.Frames x t t :=
  fun _ => .inl rfl

theorem reference (h : s.Frames (.place p) t t') : s.Frames (.tree (.ref p)) t t' := by
  intro q
  refine (h q).imp_right ?_
  rintro ⟨_, rfl, hq⟩
  exact ⟨_, List.mem_cons_self, hq⟩

theorem left (h : s.Frames (.tree lhs) t t') (rhs : Tree) :
    s.Frames (.tree (.plus lhs rhs)) t t' := by
  intro q
  refine (h q).imp_right ?_
  rintro ⟨r, hr, hq⟩
  exact ⟨r, List.mem_append_left _ hr, hq⟩

theorem right (h : s.Frames (.tree rhs) t t') (lhs : Tree) :
    s.Frames (.tree (.plus lhs rhs)) t t' := by
  intro q
  refine (h q).imp_right ?_
  rintro ⟨r, hr, hq⟩
  exact ⟨r, List.mem_append_right _ hr, hq⟩

theorem trans (h : s.Frames x t t') (h' : s.Frames x t' t'') : s.Frames x t t'' := by
  intro q
  rcases h' q with heq | hreach
  · rw [heq]
    exact h q
  · exact .inr hreach

theorem plus (h : s.Frames (.tree lhs) t t') (h' : s.Frames (.tree rhs) t' t'') :
    s.Frames (.tree (.plus lhs rhs)) t t'' :=
  (h.left rhs).trans (h'.right lhs)

/-- The formula itself may change, before and after what its tree leads to does. -/
theorem formula (h : s.Frames (.tree tree) t t') (hp : s.at? p = some (.formula tree))
    {t₀ t₁ : Table} (hbefore : ∀ q, q ≠ p → t.get? q = t₀.get? q)
    (hafter : ∀ q, q ≠ p → t₁.get? q = t'.get? q) : s.Frames (.place p) t₀ t₁ := by
  intro q
  by_cases hqp : q = p
  · subst hqp
    exact .inr ⟨q, rfl, .refl⟩
  · rcases h q with heq | ⟨r, hr, hq⟩
    · rw [hafter q hqp, heq, hbefore q hqp]
      exact .inl rfl
    · exact .inr ⟨p, rfl, .head ⟨tree, hp, hr⟩ hq⟩

end Frames

end Sheet

/-- The formula that begins is the only one that changes then, and the sheet stays. -/
theorem EvalState.table_enter (hp : σ.table.get? p = some (.formula f))
    (hs : f.status = .unevaluated) (store : Store) :
    (σ.enter p).table.sheet store = σ.table.sheet store ∧
      ∀ q, q ≠ p → (σ.enter p).table.get? q = σ.table.get? q := by
  have hlater : σ.table.Later (σ.enter p).table := .of_setFormula hp hs .inProgress 0
  exact ⟨hlater.sheet_eq store, fun q hq => Table.get?_setFormula_of_ne hp .inProgress 0 hq⟩

/-- A run changes nothing that is out of reach. -/
theorem Runs.frames {r : Except EvalError Float} (h : Runs store o x σ r σ')
    (hsheet : σ.table.sheet store = s) : s.Frames x σ.table σ'.table := by
  induction h with
  | outside _ => exact .refl _ _ _
  | empty _ => exact .refl _ _ _
  | number _ => exact .refl _ _ _
  | text _ => exact .refl _ _ _
  | cached _ _ => exact .refl _ _ _
  | cycle _ _ => exact .refl _ _ _
  | done hp hs htree hrun ih =>
      obtain ⟨hsheet', hothers⟩ := EvalState.table_enter hp hs store
      have hbegun :=
        hrun.later.get?_of_begun (Table.get?_setFormula_self hp .inProgress 0) (by simp)
      have hat := Table.at?_sheet_of_formula hp htree
      rw [hsheet] at hat
      exact (ih (hsheet'.trans hsheet)).formula hat hothers
        fun q hq => Table.get?_setFormula_of_ne hbegun .evaluated _ hq
  | broken hp hs htree _ ih =>
      obtain ⟨hsheet', hothers⟩ := EvalState.table_enter hp hs store
      have hat := Table.at?_sheet_of_formula hp htree
      rw [hsheet] at hat
      exact (ih (hsheet'.trans hsheet)).formula hat hothers fun _ _ => rfl
  | literal => exact .refl _ _ _
  | reference _ ih => exact (ih hsheet).reference
  | plus h₁ _ ih₁ ih₂ => exact (ih₁ hsheet).plus (ih₂ ((h₁.later.sheet_eq store).trans hsheet))
  | plusLeft _ ih => exact (ih hsheet).left _
  | plusRight h₁ _ ih₁ ih₂ =>
      exact (ih₁ hsheet).plus (ih₂ ((h₁.later.sheet_eq store).trans hsheet))

/-! ### Settled tables -/

/-- If there is a formula at the position, it is evaluated. -/
def Table.EvaluatedAt (t : Table) (p : Position) : Prop :=
  ∀ f, t.get? p = some (.formula f) → f.status = .evaluated

/-- What an evaluated formula refers to is evaluated, as far as it is a formula. -/
def Table.Settled (s : Sheet) (t : Table) : Prop :=
  ∀ p q f, t.get? p = some (.formula f) → f.status = .evaluated → s.References p q → t.EvaluatedAt q

theorem Table.Later.evaluatedAt (h : t.Later t') (hq : t.EvaluatedAt q) : t'.EvaluatedAt q := by
  intro f hf
  obtain ⟨f₀, hf₀, _⟩ := h.exists_formula_before hf
  have hs := hq f₀ hf₀
  rw [h.get?_of_begun hf₀ (by simp [hs])] at hf
  cases hf
  exact hs

namespace Table.Settled

/-- No evaluated formula refers to one that begins. -/
theorem enter (h : t.Settled s) (hp : t.get? p = some (.formula f)) (hs : f.status = .unevaluated) :
    (t.setFormula p .inProgress 0).Settled s := by
  intro r q g hr hg href g' hq
  rcases formula_setFormula hp hr with ⟨_, rfl⟩ | ⟨_, hr'⟩
  · cases hg
  · rcases formula_setFormula hp hq with ⟨rfl, _⟩ | ⟨_, hq'⟩
    · have hevaluated := h r q g hr' hg href f hp
      rw [hs] at hevaluated
      cases hevaluated
    · exact h r q g hr' hg href g' hq'

/-- A formula may end when everything that it refers to has ended. -/
theorem leave (h : t.Settled s) (hp : t.get? p = some (.formula f))
    (hrefs : ∀ q, s.References p q → t.EvaluatedAt q) (v : Float) :
    (t.setFormula p .evaluated v).Settled s := by
  intro r q g hr hg href g' hq
  rcases formula_setFormula hp hq with ⟨_, rfl⟩ | ⟨_, hq'⟩
  · rfl
  · rcases formula_setFormula hp hr with ⟨rfl, _⟩ | ⟨_, hr'⟩
    · exact hrefs q href g' hq'
    · exact h r q g hr' hg href g' hq'

/-- From an evaluated formula references lead to evaluated formulas only. -/
theorem evaluatedAt_of_reaches (h : t.Settled s) (hsheet : t.sheet store = s)
    (hp : t.EvaluatedAt p) (hq : ReflTransGen s.References p q) : t.EvaluatedAt q := by
  induction hq with
  | refl => exact hp
  | @tail q r _ href ih =>
      obtain ⟨tree, hat, _⟩ := id href
      rw [← hsheet, at?_sheet, Option.map_eq_some_iff] at hat
      obtain ⟨cell, hcell, hcontent⟩ := hat
      cases cell with
      | formula f => exact h q r f hcell (ih f hcell) href
      | _ => cases hcontent

/-- Where no formula is evaluated there is nothing to check. -/
theorem of_unevaluated (h : ∀ {p : Position} {f : FormulaCell}, t.get? p = some (.formula f) →
    f.status = .unevaluated) : t.Settled s := by
  intro p q f hp hs
  rw [h hp] at hs
  cases hs

end Table.Settled

/-- A run keeps a table settled, and if it succeeds, what its subject asks for is evaluated. -/
theorem Runs.settled {r : Except EvalError Float} (h : Runs store o x σ r σ')
    (hsheet : σ.table.sheet store = s) (hsettled : σ.table.Settled s) :
    σ'.table.Settled s ∧ ∀ v, r = .ok v → ∀ q, x.Asks q → σ'.table.EvaluatedAt q := by
  -- A place without a formula has nothing to evaluate.
  have hnone : ∀ {t : Table} {p : Position} {cell : Cell}, t.get? p = some cell →
      (∀ f, cell ≠ .formula f) → ∀ q, Subject.Asks (.place p) q → t.EvaluatedAt q := by
    rintro t p cell hcell hno _ rfl f hf
    rw [hcell, Option.some.injEq] at hf
    exact absurd hf (hno f)
  induction h with
  | outside _ => exact ⟨hsettled, fun v hv => by cases hv⟩
  | empty hp => exact ⟨hsettled, fun v _ => hnone hp (by simp)⟩
  | number hp => exact ⟨hsettled, fun v _ => hnone hp (by simp)⟩
  | text _ => exact ⟨hsettled, fun v hv => by cases hv⟩
  | cached hp hs =>
      refine ⟨hsettled, ?_⟩
      rintro v _ q rfl g hg
      cases hg.symm.trans hp
      exact hs
  | cycle _ _ => exact ⟨hsettled, fun v hv => by cases hv⟩
  | @done o p f tree v σ σ' hp hs htree hrun ih =>
      obtain ⟨hsheet', _⟩ := EvalState.table_enter hp hs store
      have hbegun :=
        hrun.later.get?_of_begun (Table.get?_setFormula_self hp .inProgress 0) (by simp)
      obtain ⟨hsettled', hasked⟩ := ih (hsheet'.trans hsheet) (hsettled.enter hp hs)
      have hat := Table.at?_sheet_of_formula hp htree
      rw [hsheet] at hat
      refine ⟨hsettled'.leave hbegun (fun q href => ?_) v, ?_⟩
      · obtain ⟨tree', hat', hq⟩ := href
        cases hat'.symm.trans hat
        exact hasked v rfl q hq
      · rintro w _ q rfl g hg
        rcases Table.formula_setFormula hbegun hg with ⟨_, rfl⟩ | ⟨hne, _⟩
        · rfl
        · exact absurd rfl hne
  | broken hp hs _ _ ih =>
      obtain ⟨hsheet', _⟩ := EvalState.table_enter hp hs store
      obtain ⟨hsettled', _⟩ := ih (hsheet'.trans hsheet) (hsettled.enter hp hs)
      exact ⟨hsettled', fun v hv => by cases hv⟩
  | literal => exact ⟨hsettled, fun v _ q hq => absurd hq (by simp [Subject.Asks, Tree.operands])⟩
  | reference _ ih =>
      obtain ⟨hsettled', hasked⟩ := ih hsheet hsettled
      refine ⟨hsettled', fun v hv q hq => hasked v hv q ?_⟩
      simpa [Subject.Asks, Tree.operands] using hq
  | @plus o lhs rhs a b σ σ₁ σ₂ h₁ h₂ ih₁ ih₂ =>
      obtain ⟨hsettled₁, hasked₁⟩ := ih₁ hsheet hsettled
      obtain ⟨hsettled₂, hasked₂⟩ := ih₂ ((h₁.later.sheet_eq store).trans hsheet) hsettled₁
      refine ⟨hsettled₂, fun v _ q hq => ?_⟩
      rcases List.mem_append.1 hq with hq | hq
      · exact h₂.later.evaluatedAt (hasked₁ a rfl q hq)
      · exact hasked₂ b rfl q hq
  | plusLeft _ ih => exact ⟨(ih hsheet hsettled).1, fun v hv => by cases hv⟩
  | plusRight h₁ _ ih₁ ih₂ =>
      have hsettled₁ := (ih₁ hsheet hsettled).1
      exact ⟨(ih₂ ((h₁.later.sheet_eq store).trans hsheet) hsettled₁).1, fun v hv => by cases hv⟩

theorem RunsAll.settled {ps : List Position} {r : Except EvalError Unit}
    (h : RunsAll store ps σ r σ') (hsheet : σ.table.sheet store = s)
    (hsettled : σ.table.Settled s) : σ'.table.Settled s := by
  induction h with
  | nil => exact hsettled
  | skip _ _ ih => exact ih hsheet hsettled
  | next _ hrun _ ih =>
      exact ih ((hrun.later.sheet_eq store).trans hsheet) (hrun.settled hsheet hsettled).1
  | stop _ hrun => exact (hrun.settled hsheet hsettled).1

/-- What is in progress after a success was in progress before. -/
theorem Runs.inProgress_before {v : Float} {r : Except EvalError Float} (h : Runs store o x σ r σ')
    (hr : r = .ok v) (hq : σ'.table.get? q = some (.formula f)) (hs : f.status = .inProgress) :
    σ.table.get? q = some (.formula f) := by
  induction h generalizing v with
  | outside _ => exact hq
  | empty _ => exact hq
  | number _ => exact hq
  | text _ => exact hq
  | cached _ _ => exact hq
  | cycle _ _ => exact hq
  | done hp _ _ hrun ih =>
      have hbegun :=
        hrun.later.get?_of_begun (Table.get?_setFormula_self hp .inProgress 0) (by simp)
      rcases Table.formula_setFormula hbegun hq with ⟨_, rfl⟩ | ⟨hne, hq⟩
      · cases hs
      · exact (Table.get?_setFormula_of_ne hp .inProgress 0 hne).symm.trans (ih rfl hq)
  | broken _ _ _ _ _ => cases hr
  | literal => exact hq
  | reference _ ih => exact ih hr hq
  | plus _ _ ih₁ ih₂ => exact ih₁ rfl (ih₂ rfl hq)
  | plusLeft _ _ => cases hr
  | plusRight _ _ _ _ => cases hr

/-! ### Calls -/

theorem Table.Settled.evaluateCell (h : t.Settled s) (hrest : t.AtRest store s) (e : Evaluator)
    (p : Position) : (e.evaluateCell store t p).2.2.Settled s := by
  obtain ⟨r, σ', hcall, hrun⟩ := evaluateCell_runs hrest.rooted e p
  rw [hcall]
  exact (hrun.settled hrest.sound.sheet_eq h).1

theorem Table.Settled.evaluateTable (h : t.Settled s) (hrest : t.AtRest store s) (e : Evaluator) :
    (e.evaluateTable store t).2.2.Settled s := by
  obtain ⟨r, σ', hcall, hrun⟩ := evaluateTable_runs hrest.rooted e
  rw [hcall]
  exact hrun.settled hrest.sound.sheet_eq h

/-- Whatever happens to a table that was read, it stays settled. -/
theorem Workbench.settled_run {source : List Char} (hreads : t.ReadsAs source store)
    (actions : List Workbench.Action) :
    ((Workbench.start t).run store actions).table.AtRest store (t.sheet store) ∧
      ((Workbench.start t).run store actions).table.Settled (t.sheet store) := by
  have hstart : t.AtRest store (t.sheet store) ∧ t.Settled (t.sheet store) :=
    ⟨hreads.atRest, .of_unevaluated hreads.unevaluated⟩
  refine (Workbench.run_induction (w := .start t)
    (P := fun now => now.AtRest store (t.sheet store) ∧ now.Settled (t.sheet store))
    ?_ ?_ hstart (fun _ => hstart) actions).1
  · exact fun t e p h => ⟨h.1.evaluateCell e p, h.2.evaluateCell h.1 e p⟩
  · exact fun t e h => ⟨h.1.evaluateTable e, h.2.evaluateTable h.1 e⟩

/-- Whatever has happened to a table, asking for a cell changes the state of formulas to which
references lead from the cell, and only of those that were not begun before; everything else in the
table stays as it is. If there is a value, all formulas to which references lead are evaluated, and
no formula is in progress that was not before. -/
theorem evaluateCell_changes {source : List Char} {before : Store}
    (hread : Table.read source before = (.ok t, store)) (hstore : store.size < 2 ^ 32)
    (actions : List Workbench.Action) (e : Evaluator) (p : Position) :
    let now := ((Workbench.start t).run store actions).table
    let result := (e.evaluateCell store now p).1
    let after := (e.evaluateCell store now p).2.2
    let Reached := ReflTransGen (t.sheet store).References p
    (after.source = now.source ∧ after.rows = now.rows ∧ after.cols = now.cols) ∧
    (∀ q, after.get? q = now.get? q ∨ Reached q ∧ ∃ f status v,
      now.get? q = some (.formula f) ∧ f.status = .unevaluated ∧
        after.get? q = some (.formula { f with status, value := v })) ∧
    ∀ v, result = .ok v →
      (∀ q f, Reached q → after.get? q = some (.formula f) → f.status = .evaluated) ∧
      ∀ q f, after.get? q = some (.formula f) → f.status = .inProgress →
        now.get? q = some (.formula f) := by
  have hreads := Table.readsAs_of_size_le hread (Nat.le_of_lt hstore)
  obtain ⟨hrest, hsettled⟩ := Workbench.settled_run hreads actions
  obtain ⟨r, σ', hcall, hrun⟩ := evaluateCell_runs hrest.rooted e p
  intro now result after Reached
  have hresult : result = r.mapError .error := congrArg Prod.fst hcall
  have hafter : after = σ'.table := congrArg (·.2.2) hcall
  have hlater : now.Later after := hafter ▸ hrun.later
  have hsheet : after.sheet store = t.sheet store :=
    (hlater.sheet_eq store).trans hrest.sound.sheet_eq
  refine ⟨⟨hlater.source_eq, hlater.rows_eq, hlater.cols_eq⟩, fun q => ?_, fun v hv => ?_⟩
  · rcases hlater.cell_eq q with heq | ⟨f, ⟨root, status, v⟩, hf, hs, hf', hroot⟩
    · exact .inl heq
    · refine (hrun.frames hrest.sound.sheet_eq q).imp (fun heq => ?_) fun hreach => ?_
      · rw [hafter]
        exact heq
      · obtain rfl : root = f.root := hroot
        exact ⟨Sheet.reaches_place.1 hreach, f, status, v, hf, hs, hf'⟩
  · obtain rfl : r = .ok v := eq_ok_of_mapError (hresult.symm.trans hv)
    obtain ⟨hsettled', hasked⟩ := hrun.settled hrest.sound.sheet_eq hsettled
    rw [← hafter] at hsettled' hasked
    refine ⟨fun q f hq => ?_, fun q f hf hs => ?_⟩
    · exact hsettled'.evaluatedAt_of_reaches hsheet (hasked v rfl p rfl) hq f
    · exact hrun.inProgress_before rfl (hafter ▸ hf) hs

/-- A text made one formula fail before, and another one, to which two references lead, has its
value already. -/
theorem evaluateCell_changes_of_shared :
    ∃ t store, Table.read "=B0+C0|=C0|=2|=E0|x".toList .empty = (.ok t, store) ∧
      store.size < 2 ^ 32 ∧
      let now := ((Workbench.start t).run store
        [.evaluateCell 0 ⟨0, 3⟩, .evaluateCell 1 ⟨0, 2⟩]).table
      let after := (({} : Evaluator).evaluateCell store now ⟨0, 0⟩).2.2
      (({} : Evaluator).evaluateCell store now ⟨0, 0⟩).1 = .ok 4 ∧
        now.get? ⟨0, 3⟩ = after.get? ⟨0, 3⟩ ∧ after.EvaluatedAt ⟨0, 1⟩ := by
  have hcheck : Table.readsTo "=B0+C0|=C0|=2|=E0|x".toList (fun t store =>
      let now := ((Workbench.start t).run store
        [.evaluateCell 0 ⟨0, 3⟩, .evaluateCell 1 ⟨0, 2⟩]).table
      decide (store.size < 2 ^ 32 ∧
        (({} : Evaluator).evaluateCell store now ⟨0, 0⟩).1 = .ok 4 ∧
        now.get? ⟨0, 3⟩ = some (.formula { root := .ofIndex 5, status := .inProgress }) ∧
        (t.sheet store).at? ⟨0, 0⟩ =
          some (.formula (.plus (.ref ⟨0, 1⟩) (.ref ⟨0, 2⟩))))) = true := by decide +kernel
  obtain ⟨t, store, hread, hcheck⟩ := Table.exists_of_readsTo hcheck
  obtain ⟨hstore, hvalue, hbegun, hat⟩ := of_decide_eq_true hcheck
  obtain ⟨_, hcells, hafter⟩ := evaluateCell_changes hread hstore
    [.evaluateCell 0 ⟨0, 3⟩, .evaluateCell 1 ⟨0, 2⟩] {} ⟨0, 0⟩
  refine ⟨t, store, hread, hstore, hvalue, ?_, fun f hf => ?_⟩
  · rcases hcells ⟨0, 3⟩ with heq | ⟨_, f, _, _, hf, hs, _⟩
    · exact heq.symm
    · cases hf.symm.trans hbegun
      cases hs
  · exact (hafter 4 hvalue).1 _ f (.single ⟨_, hat, List.mem_cons_self⟩) hf

end PipeSheet
