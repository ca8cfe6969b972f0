import PipeSheet.Proofs.Evaluation.Meaning
/-!
# PipeSheet.Proofs.Evaluation.Naive

**On a table that was just read, marking and remembering cannot be seen.**

The naive evaluator keeps nothing but its stack. While nothing has failed, the formulas in progress
are exactly those on the stack (`Clean`), so both evaluators meet the same cycles; and a value that
was remembered is the one the naive evaluator computes again, since whether and to what a formula
evaluates does not depend on the stack. A failure ends the whole evaluation, so nothing need be
known of the state after it.

* `Clean`: the states of an evaluation that has not failed;
* `Runs.eq_naive`, `RunsAll.eq_naive`: the two evaluators step by step;
* `Sheet.firstFailure?`, `Sheet.shown?`: what the naive evaluator makes of a whole sheet;
* `evaluate_eq_naive`: the two evaluators on a table that was just read.
-/

namespace PipeSheet

open Formula (Store Tree)
open Sheet (Subject)

variable {store : Store} {s : Sheet} {stack : List Position} {σ σ' : EvalState}

/-! ### The naive evaluator on subjects and sheets -/

namespace Sheet

/-- The result of the naive evaluator for a subject. -/
def naiveOf (s : Sheet) (stack : List Position) : Subject → Except EvalError Float
  | .place p => s.naive stack p
  | .tree tree => tree.sumWith (s.naive stack)

/-- The failure of a formula, evaluated for itself. -/
def failure? (s : Sheet) (p : Position) : Option EvalError :=
  match s.at? p, s.naive [] p with
  | some (.formula _), .error e => some e
  | _, _ => none

/-- The failure of the first formula that fails, row by row. -/
def firstFailure? (s : Sheet) : Option EvalError :=
  s.places.findSome? s.failure?

/-- What a place shows, where a formula shows what it evaluates to. -/
def shown? (s : Sheet) (p : Position) : Option Value :=
  match s.at? p with
  | none => none
  | some .empty => some .empty
  | some (.text content) => some (.text content)
  | some (.number value) => some (.number value)
  | some (.formula _) => (s.naive [] p).toOption.map .number

variable {p : Position} {tree : Tree}

theorem failure?_of_formula (h : s.at? p = some (.formula tree)) :
    s.failure? p = match s.naive [] p with
      | .error e => some e
      | .ok _ => none := by
  unfold failure?
  rw [h]
  cases s.naive [] p <;> rfl

theorem failure?_of_not_formula (h : ∀ tree, s.at? p ≠ some (.formula tree)) :
    s.failure? p = none := by
  unfold failure?
  split
  · next tree e hp _ => exact absurd hp (h tree)
  · rfl

/-- The grid of a sheet shows what the naive evaluator makes of it. -/
theorem Shows.get?_eq_shown? {g : Grid} (h : s.Shows g) (p : Position) : g.get? p = s.shown? p := by
  unfold shown?
  cases hp : s.at? p with
  | none =>
      cases hvalue : g.get? p with
      | none => rfl
      | some value =>
          have hdisplays := (h.2.2 p value).1 hvalue
          simp [Displays, hp] at hdisplays
  | some content =>
      cases content with
      | empty => exact (h.2.2 p _).2 (displays_of_empty hp)
      | text content => exact (h.2.2 p _).2 (displays_of_text hp)
      | number value => exact (h.2.2 p _).2 (displays_of_number hp)
      | formula tree =>
          obtain ⟨v, hv⟩ := h.exists_hasValue ⟨tree, hp⟩
          have hchain : s.Chain [] p := trivial
          dsimp only
          rw [(naive_eq_ok_iff hchain).2 hv]
          exact (h.2.2 p _).2 (displays_of_formula hp hv)

end Sheet

/-! ### Clean states -/

/-- Nothing has failed so far: the formulas in progress are those on the stack, and the evaluator's
path is the stack. -/
structure Clean (stack : List Position) (σ : EvalState) : Prop where
  path_eq : σ.evaluator.path = stack
  inProgress_iff : ∀ {p : Position} {f : FormulaCell}, σ.table.get? p = some (.formula f) →
    (f.status = .inProgress ↔ p ∈ stack)

namespace Clean

variable {p : Position} {f : FormulaCell}

theorem visit (h : Clean stack σ) : Clean stack σ.visit := ⟨h.path_eq, h.inProgress_iff⟩

theorem hit (h : Clean stack σ) : Clean stack σ.hit := ⟨h.path_eq, h.inProgress_iff⟩

theorem enter (h : Clean stack σ) (hp : σ.table.get? p = some (.formula f)) :
    Clean (p :: stack) (σ.enter p) := by
  refine ⟨congrArg (p :: ·) h.path_eq, fun {q g} hq => ?_⟩
  rcases Table.formula_setFormula hp hq with ⟨rfl, rfl⟩ | ⟨hqp, hq⟩
  · simp
  · simp [h.inProgress_iff hq, hqp]

theorem leave {v : Float} (h : Clean (p :: stack) σ) (hp : σ.table.get? p = some (.formula f))
    (hstack : p ∉ stack) : Clean stack (σ.leave p v) := by
  refine ⟨congrArg List.tail h.path_eq, fun {q g} hq => ?_⟩
  rcases Table.formula_setFormula hp hq with ⟨rfl, rfl⟩ | ⟨hqp, hq⟩
  · simp [hstack]
  · simp [h.inProgress_iff hq, hqp]

/-- What has not begun is not on the stack. -/
theorem not_mem (h : Clean stack σ) (hp : σ.table.get? p = some (.formula f))
    (hs : f.status = .unevaluated) : p ∉ stack := by
  intro hmem
  rw [(h.inProgress_iff hp).2 hmem] at hs
  cases hs

/-- A cycle closes along the stack. -/
theorem cycleTo_eq (h : Clean stack σ) (hp : p ∈ stack) :
    σ.evaluator.cycleTo p = Sheet.loop stack p := by
  unfold Evaluator.cycleTo Sheet.loop
  rw [h.path_eq]
  exact congrArg (· ++ [p]) (if_pos (List.mem_reverse.2 hp))

end Clean

/-! ### Step by step -/

/-- From a clean state a run has the result of the naive evaluator, and if it succeeds it ends in a
clean state. -/
theorem Runs.eq_naive {o : Option Position} {x : Subject} {r : Except EvalError Float}
    (h : Runs store o x σ r σ') (ho : o = stack.head?) (hsound : Sound store s stack σ.table)
    (hclean : Clean stack σ) (hleads : s.Leads stack x) :
    s.naiveOf stack x = r ∧ ∀ v, r = .ok v → Clean stack σ' := by
  induction h generalizing stack with
  | @outside o p σ hp =>
      refine ⟨?_, fun v hv => by cases hv⟩
      rw [Sheet.naiveOf, Sheet.naive_of_outside (hsound.at?_of_outside hp), ho, ← hsound.sheet_eq]
      rfl
  | @empty o p σ hp =>
      exact ⟨Sheet.naive_of_empty (hsound.at?_of_get? hp) stack, fun _ _ => hclean⟩
  | @number o p v σ hp =>
      exact ⟨Sheet.naive_of_number (hsound.at?_of_get? hp) stack, fun _ _ => hclean⟩
  | @text o p span content σ hp =>
      have hat : s.at? p = some (.text content) := hsound.at?_of_get? hp
      exact ⟨ho ▸ Sheet.naive_of_text hat stack, fun v hv => by cases hv⟩
  | cached hp hs =>
      -- The value was computed on another stack, but a place with a value has it on every stack
      -- that leads there.
      exact ⟨(Sheet.naive_eq_ok_iff hleads.chain).2 (hsound.hasValue hp hs), fun _ _ => hclean.hit⟩
  | @cycle o p f σ hp hs =>
      have hmem := (hclean.inProgress_iff hp).1 hs
      refine ⟨?_, fun v hv => by cases hv⟩
      rw [hclean.cycleTo_eq hmem]
      exact Sheet.naive_of_mem (hsound.at?_of_get? hp) hmem
  | @done o p f tree v σ σ' hp hs htree hrun ih =>
      have hat := hsound.at?_of_formula hp htree
      have hmem := hclean.not_mem hp hs
      obtain ⟨hnaive, hclean'⟩ := ih rfl (hsound.enter hp hs) (hclean.enter hp) (hleads.enter hat)
      have hp' := hrun.later.get?_of_begun (Table.get?_setFormula_self hp .inProgress 0) (by simp)
      exact ⟨(Sheet.naive_of_not_mem hat hmem).trans hnaive,
        fun _ _ => (hclean' v rfl).leave hp' hmem⟩
  | @broken o p f tree e σ σ' hp hs htree hrun ih =>
      have hat := hsound.at?_of_formula hp htree
      have hmem := hclean.not_mem hp hs
      obtain ⟨hnaive, _⟩ := ih rfl (hsound.enter hp hs) (hclean.enter hp) (hleads.enter hat)
      exact ⟨(Sheet.naive_of_not_mem hat hmem).trans hnaive, fun v hv => by cases hv⟩
  | literal => exact ⟨rfl, fun _ _ => hclean.visit⟩
  | reference hrun ih => exact ih ho hsound hclean.visit hleads.reference
  | @plus o lhs rhs a b σ σ₁ σ₂ hrun₁ hrun₂ ih₁ ih₂ =>
      obtain ⟨hl, hclean₁⟩ := ih₁ ho hsound hclean.visit hleads.left
      obtain ⟨hsound₁, _⟩ := hrun₁.sound hsound hleads.left
      obtain ⟨hr, hclean₂⟩ := ih₂ ho hsound₁ (hclean₁ a rfl) hleads.right
      rw [Sheet.naiveOf] at hl hr ⊢
      exact ⟨by rw [Tree.sumWith_plus, hl, hr], fun _ _ => hclean₂ b rfl⟩
  | plusLeft hrun ih =>
      obtain ⟨hl, _⟩ := ih ho hsound hclean.visit hleads.left
      rw [Sheet.naiveOf] at hl ⊢
      exact ⟨by rw [Tree.sumWith_plus, hl], fun v hv => by cases hv⟩
  | @plusRight o lhs rhs a e σ σ₁ σ₂ hrun₁ hrun₂ ih₁ ih₂ =>
      obtain ⟨hl, hclean₁⟩ := ih₁ ho hsound hclean.visit hleads.left
      obtain ⟨hsound₁, _⟩ := hrun₁.sound hsound hleads.left
      obtain ⟨hr, _⟩ := ih₂ ho hsound₁ (hclean₁ a rfl) hleads.right
      rw [Sheet.naiveOf] at hl hr ⊢
      exact ⟨by rw [Tree.sumWith_plus, hl, hr], fun v hv => by cases hv⟩

/-- A run over places fails with the first failure of the naive evaluator. -/
theorem RunsAll.eq_naive {ps : List Position} {r : Except EvalError Unit}
    (h : RunsAll store ps σ r σ') (hroot : σ.table.Rooted store)
    (hsound : Sound store s [] σ.table) (hclean : Clean [] σ) :
    r = match ps.findSome? s.failure? with
      | some e => .error e
      | none => .ok () := by
  induction h with
  | nil => rfl
  | @skip p rest r σ σ' hp hrest ih =>
      have hno : s.failure? p = none := Sheet.failure?_of_not_formula fun tree htree => by
        rw [← hsound.sheet_eq, Table.at?_sheet] at htree
        obtain ⟨cell, hcell, hcontent⟩ := Option.map_eq_some_iff.1 htree
        cases cell with
        | formula f => exact hp f hcell
        | _ => cases hcontent
      rw [List.findSome?_cons, hno]
      exact ih hroot hsound hclean
  | @next p rest f v r σ σ₁ σ₂ hp hrun hrest ih =>
      obtain ⟨tree, htree⟩ := hroot hp
      obtain ⟨hnaive, hclean₁⟩ := hrun.eq_naive rfl hsound hclean (Sheet.leads_nil _)
      obtain ⟨hsound₁, _⟩ := hrun.sound hsound (Sheet.leads_nil _)
      rw [Sheet.naiveOf] at hnaive
      rw [List.findSome?_cons, Sheet.failure?_of_formula (hsound.at?_of_formula hp htree), hnaive]
      exact ih (hrun.later.rooted hroot) hsound₁ (hclean₁ v rfl)
  | @stop p rest f e σ σ' hp hrun =>
      obtain ⟨tree, htree⟩ := hroot hp
      obtain ⟨hnaive, _⟩ := hrun.eq_naive rfl hsound hclean (Sheet.leads_nil _)
      rw [Sheet.naiveOf] at hnaive
      rw [List.findSome?_cons, Sheet.failure?_of_formula (hsound.at?_of_formula hp htree), hnaive]

/-! ### Calls -/

variable {source : List Char} {before : Store} {t : Table}

theorem Table.ReadsAs.clean (h : t.ReadsAs source store) : Clean [] ⟨t, {}⟩ := by
  refine ⟨rfl, fun hp => ?_⟩
  simp [h.unevaluated hp]

/-- On a table that was just read, a cell has the result of the naive evaluator, and the table has
its first failure or the grid of its values. -/
theorem evaluate_eq_naive (hread : Table.read source before = (.ok t, store))
    (hstore : store.size < 2 ^ 32) :
    (∀ p, (({} : Evaluator).evaluateCell store t p).1 =
      ((t.sheet store).naive [] p).mapError .error) ∧
    match (t.sheet store).firstFailure? with
    | some e => (({} : Evaluator).evaluateTable store t).1 = .error (.error e)
    | none => ∃ g, (({} : Evaluator).evaluateTable store t).1 = .ok g ∧
        g.rows = t.rows ∧ g.cols = t.cols ∧ ∀ p, g.get? p = (t.sheet store).shown? p := by
  have hreads := Table.readsAs_of_size_le hread (Nat.le_of_lt hstore)
  refine ⟨fun p => ?_, ?_⟩
  · obtain ⟨r, σ', hcall, hrun⟩ := evaluateCell_runs hreads.rooted {} p
    obtain ⟨hnaive, _⟩ := hrun.eq_naive rfl hreads.atRest.sound hreads.clean (Sheet.leads_nil _)
    rw [hcall, ← hnaive]
    rfl
  · obtain ⟨r, σ', hcall, hrun⟩ := evaluateTable_runs hreads.rooted {}
    have hnaive := hrun.eq_naive hreads.rooted hreads.atRest.sound hreads.clean
    have hplaces : (t.sheet store).places = t.positions := rfl
    rw [Sheet.firstFailure?, hplaces]
    cases hfirst : t.positions.findSome? (t.sheet store).failure? with
    | some e =>
        rw [hfirst] at hnaive
        rw [hcall, hnaive]
        rfl
    | none =>
        rw [hfirst] at hnaive
        have hok : (({} : Evaluator).evaluateTable store t).1 = .ok σ'.table.toGrid := by
          rw [hcall, hnaive]
          rfl
        have hshows := (evaluateTable_eq_ok_iff hreads.atRest {} _).1 hok
        exact ⟨_, hok, hshows.1, hshows.2.1, hshows.get?_eq_shown?⟩

theorem evaluate_eq_naive_on_cycle :
    ∃ t store, Table.read "=A1\n=2+A0".toList .empty = (.ok t, store) ∧ store.size < 2 ^ 32 ∧
      ((t.sheet store).naive [] ⟨1, 0⟩).mapError Halt.error =
        .error (.error (.circularDependency ⟨1, 0⟩ [⟨1, 0⟩, ⟨0, 0⟩, ⟨1, 0⟩])) := by
  have hcheck : Table.readsTo "=A1\n=2+A0".toList (fun t store => decide (store.size < 2 ^ 32 ∧
      (({} : Evaluator).evaluateCell store t ⟨1, 0⟩).1 =
        .error (.error (.circularDependency ⟨1, 0⟩ [⟨1, 0⟩, ⟨0, 0⟩, ⟨1, 0⟩])))) = true := by
    decide +kernel
  obtain ⟨t, store, hread, hcheck⟩ := Table.exists_of_readsTo hcheck
  obtain ⟨hstore, hcycle⟩ := of_decide_eq_true hcheck
  refine ⟨t, store, hread, hstore, ?_⟩
  rw [← (evaluate_eq_naive hread hstore).1 ⟨1, 0⟩]
  exact hcycle

end PipeSheet
