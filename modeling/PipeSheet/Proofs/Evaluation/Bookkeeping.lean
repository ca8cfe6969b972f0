import PipeSheet.Evaluation.Session
import PipeSheet.Proofs.Safety.NoPanic
/-!
# PipeSheet.Proofs.Evaluation.Bookkeeping

**What an evaluator remembers is what the table shows.**

A failure skips the end of every formula that is in progress: each keeps its mark, and its place
stays on the path. So the path and the marks do not part, whatever fails, and a later call that
meets such a formula finds it on the path. What is counted is what has a mark, and every mark is set
once.

A run keeps this at each step, also where it stops in the midst of a formula (`Runs.kept`); calls,
one after another, keep it from the beginning. The nodes that they visit belong to formulas with a
mark, so no call visits a node of an earlier one.

* `EvalState.Kept`: the path and the count of formulas, against the table;
* `Watched.VisitedOnce`: the visited nodes, against the table;
* `Call`, `Watched.call`: what may be asked of an evaluator, and what is visited and changed then;
* `session_bookkeeping`: the law.
-/

namespace PipeSheet

open Formula (NodeId Store Tree)
open Sheet (Subject)
open Text (byteLength)

variable {store : Store} {t t' : Table} {p q : Position} {f : FormulaCell} {status : Status}

/-! ### What a table shows -/

/-- Whether the cell holds a formula that was begun. -/
def Cell.isBegun : Cell → Bool
  | .formula f => f.status ≠ .unevaluated
  | _ => false

theorem Cell.isBegun_formula : (Cell.formula f).isBegun = true ↔ f.status ≠ .unevaluated := by
  simp [isBegun]

/-- The number of nodes of the formula in a cell, if it was begun. -/
def Cell.begunNodes (store : Store) : Cell → Nat
  | .formula f => if f.status = .unevaluated then 0 else (store.tree? f.root).elim 0 Tree.size
  | _ => 0

namespace Table

/-- There is a formula with a status at a position. -/
def HasStatus (t : Table) (p : Position) (status : Status) : Prop :=
  ∃ f, t.get? p = some (.formula f) ∧ f.status = status

/-- The number of formulas that were begun. -/
def begunCount (t : Table) : Nat :=
  t.cells.countP Cell.isBegun

/-- The number of nodes of all formulas that were begun. -/
def begunNodes (store : Store) (t : Table) : Nat :=
  (t.cells.toList.map (Cell.begunNodes store)).sum

theorem begunCount_le_formulaCount (t : Table) : t.begunCount ≤ t.formulaCount := by
  rw [begunCount, formulaCount, ← Array.countP_toList, ← Array.countP_toList]
  refine List.countP_mono_left fun cell _ h => ?_
  cases cell with
  | formula f => rfl
  | _ => cases h

theorem hasStatus_setFormula (h : t.get? p = some (.formula f)) (new : Status) (v : Float) :
    (t.setFormula p new v).HasStatus q status ↔
      (q = p ∧ new = status) ∨ (q ≠ p ∧ t.HasStatus q status) := by
  constructor
  · rintro ⟨g, hg, hs⟩
    rcases formula_setFormula h hg with ⟨rfl, rfl⟩ | ⟨hq, hg⟩
    · exact .inl ⟨rfl, hs⟩
    · exact .inr ⟨hq, g, hg, hs⟩
  · rintro (⟨rfl, hs⟩ | ⟨hq, g, hg, hs⟩)
    · exact ⟨_, get?_setFormula_self h new v, hs⟩
    · exact ⟨g, (get?_setFormula_of_ne h new v hq).trans hg, hs⟩

/-- A change of a formula replaces one cell and keeps those before and behind it. -/
theorem exists_cells_setFormula (h : t.get? p = some (.formula f)) (new : Status) (v : Float) :
    ∃ front back, t.cells.toList = front ++ .formula f :: back ∧
      (t.setFormula p new v).cells.toList =
        front ++ .formula { f with status := new, value := v } :: back := by
  rw [get?_of_contains (contains_of_get? h), ← Array.getElem?_toList] at h
  obtain ⟨hi, hcell⟩ := List.getElem?_eq_some_iff.1 h
  have hset : (t.setFormula p new v).cells.toList =
      t.cells.toList.set (t.index p) (.formula { f with status := new, value := v }) := by
    show (t.cells.modify (t.index p) (Cell.withState new v)).toList = _
    rw [Array.toList_modify, List.modify_eq_set_getElem?, h]
    rfl
  refine ⟨t.cells.toList.take (t.index p), t.cells.toList.drop (t.index p + 1), ?_, ?_⟩
  · rw [← hcell, List.cons_getElem_drop_succ, List.take_append_drop]
  · rw [hset, List.set_eq_take_append_cons_drop, if_pos hi]

/-- A formula counts as begun before and after a change, by its status before and after it. -/
theorem begunCount_setFormula (h : t.get? p = some (.formula f)) (new : Status) (v : Float) :
    (t.setFormula p new v).begunCount + (if f.status = .unevaluated then 0 else 1) =
      t.begunCount + (if new = .unevaluated then 0 else 1) := by
  obtain ⟨front, back, hcells, hcells'⟩ := exists_cells_setFormula h new v
  rw [begunCount, begunCount, ← Array.countP_toList, ← Array.countP_toList, hcells, hcells']
  simp only [List.countP_append, List.countP_cons, Cell.isBegun_formula, ne_eq, ite_not]
  omega

/-- What does not depend on the state of a formula is the same for all cells. -/
theorem Later.map_cells_eq {α : Type} (h : t.Later t') {g : Cell → α}
    (hg : ∀ f f' : FormulaCell, f'.root = f.root → g (.formula f') = g (.formula f)) :
    t'.cells.toList.map g = t.cells.toList.map g := by
  refine List.ext_getElem? fun i => ?_
  rw [List.getElem?_map, List.getElem?_map, Array.getElem?_toList, Array.getElem?_toList]
  by_cases hi : i < t.rows * t.cols
  · rw [getElem?_cells hi, getElem?_cells (by rwa [h.rows_eq, h.cols_eq]), h.cols_eq]
    rcases h.cell_eq ⟨i / t.cols, i % t.cols⟩ with heq | ⟨f, f', hf, _, hf', hroot⟩
    · rw [heq]
    · rw [hf, hf', Option.map_some, Option.map_some, hg f f' hroot]
  · have hi' : ¬ i < t'.rows * t'.cols := by rwa [h.rows_eq, h.cols_eq]
    rw [Array.getElem?_eq_none, Array.getElem?_eq_none]
    · simpa [t.size_cells] using hi
    · simpa [t'.size_cells] using hi'

/-- The number of formulas does not change. -/
theorem Later.formulaCount_eq (h : t.Later t') : t'.formulaCount = t.formulaCount := by
  have hmap := h.map_cells_eq (g := Cell.isFormula) fun _ _ _ => rfl
  have hcount : ∀ s : Table, s.formulaCount = (s.cells.toList.map Cell.isFormula).countP id := by
    intro s
    rw [formulaCount, ← Array.countP_toList, List.countP_map]
    rfl
  rw [hcount, hcount, hmap]

/-- The nodes of a formula that was begun can be listed. -/
theorem Safe.exists_nodes_of_cell (h : t.Safe store) {cell : Cell} (hcell : cell ∈ t.cells.toList) :
    ∃ ids, (∀ f, cell = .formula f → f.status ≠ .unevaluated →
        ∃ tree, store.Layout f.root tree ids) ∧
      ids.length = cell.begunNodes store := by
  cases cell with
  | formula f =>
      obtain ⟨p, hp⟩ := exists_get?_of_mem hcell
      obtain ⟨tree, ids, hlayout, _⟩ := h.separate.exists_layout hp
      by_cases hs : f.status = .unevaluated
      · refine ⟨[], ?_, by simp [Cell.begunNodes, hs]⟩
        intro g hg hbegun
        cases hg
        exact absurd hs hbegun
      · refine ⟨ids, ?_, by simp [Cell.begunNodes, hs, hlayout.tree?_eq, hlayout.length_eq]⟩
        intro g hg _
        cases hg
        exact ⟨tree, hlayout⟩
  | _ => exact ⟨[], by simp, rfl⟩

/-- The nodes of all formulas that were begun can be listed. -/
theorem Safe.exists_nodes (h : t.Safe store) : ∃ ids : List NodeId,
    (∀ p id, t.Begun p → t.Owns store p id → id ∈ ids) ∧ ids.length = t.begunNodes store := by
  have key : ∀ cells : List Cell, (∀ cell ∈ cells, cell ∈ t.cells.toList) → ∃ ids : List NodeId,
      (∀ f tree nodes, .formula f ∈ cells → f.status ≠ .unevaluated →
        store.Layout f.root tree nodes → nodes ⊆ ids) ∧
      ids.length = (cells.map (Cell.begunNodes store)).sum := by
    intro cells
    induction cells with
    | nil => exact fun _ => ⟨[], by simp, rfl⟩
    | cons cell rest ih =>
        intro hmem
        obtain ⟨xs, hxs, hlength⟩ := h.exists_nodes_of_cell (hmem cell List.mem_cons_self)
        obtain ⟨ys, hys, hlength'⟩ := ih fun c hc => hmem c (List.mem_cons_of_mem _ hc)
        refine ⟨xs ++ ys, ?_, by simp [hlength, hlength']⟩
        intro f tree nodes hf hs hlayout
        rcases List.mem_cons.1 hf with hf | hf
        · obtain ⟨tree', hlayout'⟩ := hxs f hf.symm hs
          obtain ⟨_, rfl⟩ := hlayout.unique hlayout'
          exact List.subset_append_left _ _
        · exact List.Subset.trans (hys f tree nodes hf hs hlayout) (List.subset_append_right _ _)
  obtain ⟨ids, hids, hlength⟩ := key t.cells.toList fun _ hc => hc
  refine ⟨ids, ?_, hlength⟩
  rintro p id ⟨f, hf, hs⟩ ⟨f', tree, nodes, hf', hlayout, hid⟩
  obtain rfl : f = f' := by simpa [hf] using hf'
  exact hids f tree nodes (mem_of_get? hf) hs hlayout hid

end Table

/-! ### Runs -/

namespace EvalState

/-- The path is the formulas in progress, each once, and those that were begun are counted. -/
structure Kept (σ : EvalState) : Prop where
  path_nodup : σ.evaluator.path.Nodup
  mem_path_iff : ∀ p, p ∈ σ.evaluator.path ↔ σ.table.HasStatus p .inProgress
  formulas_eq : σ.evaluator.stats.formulasEvaluated = σ.table.begunCount

variable {σ σ' : EvalState}

theorem Kept.visit (h : σ.Kept) : σ.visit.Kept :=
  ⟨h.path_nodup, h.mem_path_iff, h.formulas_eq⟩

theorem Kept.hit (h : σ.Kept) : σ.hit.Kept :=
  ⟨h.path_nodup, h.mem_path_iff, h.formulas_eq⟩

/-- A formula that begins is not on the path. -/
theorem Kept.enter (h : σ.Kept) (hp : σ.table.get? p = some (.formula f))
    (hs : f.status = .unevaluated) : (σ.enter p).Kept := by
  have hnot : p ∉ σ.evaluator.path := by
    intro hmem
    obtain ⟨g, hg, hstatus⟩ := (h.mem_path_iff p).1 hmem
    obtain rfl : f = g := by simpa [hp] using hg
    rw [hs] at hstatus
    cases hstatus
  refine ⟨List.nodup_cons.2 ⟨hnot, h.path_nodup⟩, ?_, ?_⟩
  · intro q
    rw [EvalState.enter, Table.hasStatus_setFormula hp, List.mem_cons, h.mem_path_iff]
    constructor
    · rintro (rfl | hq)
      · exact .inl ⟨rfl, rfl⟩
      · by_cases hqp : q = p
        · exact .inl ⟨hqp, rfl⟩
        · exact .inr ⟨hqp, hq⟩
    · rintro (⟨rfl, _⟩ | ⟨_, hq⟩)
      · exact .inl rfl
      · exact .inr hq
  · have hcount := Table.begunCount_setFormula hp .inProgress 0
    rw [if_pos hs, if_neg (by simp)] at hcount
    show σ.evaluator.stats.formulasEvaluated + 1 = _
    rw [h.formulas_eq]
    exact hcount.symm

/-- The formula that ends is the innermost one of the path. -/
theorem Kept.leave (h : σ.Kept) {rest : List Position} (hpath : σ.evaluator.path = p :: rest)
    (hp : σ.table.get? p = some (.formula f)) (hs : f.status = .inProgress) (v : Float) :
    (σ.leave p v).Kept := by
  have hnodup := h.path_nodup
  rw [hpath, List.nodup_cons] at hnodup
  have hrest : (σ.leave p v).evaluator.path = rest := congrArg List.tail hpath
  refine ⟨?_, ?_, ?_⟩
  · rw [hrest]
    exact hnodup.2
  · intro q
    have hmem := h.mem_path_iff q
    rw [hpath, List.mem_cons] at hmem
    rw [hrest, EvalState.leave, Table.hasStatus_setFormula hp, ← hmem]
    constructor
    · intro hq
      refine .inr ⟨?_, .inr hq⟩
      rintro rfl
      exact hnodup.1 hq
    · rintro (⟨_, hstatus⟩ | ⟨hqp, rfl | hq⟩)
      · cases hstatus
      · exact absurd rfl hqp
      · exact hq
  · have hcount := Table.begunCount_setFormula hp .evaluated v
    rw [if_neg (by simp [hs]), if_neg (by simp)] at hcount
    exact h.formulas_eq.trans (Nat.add_right_cancel hcount).symm

end EvalState

section Runs

variable {o : Option Position} {x : Subject} {r : Except EvalError Float} {σ σ' : EvalState}

/-- A run that has a value leaves the path as it was. -/
theorem Runs.path_eq (h : Runs store o x σ r σ') {v : Float} (hr : r = .ok v) :
    σ'.evaluator.path = σ.evaluator.path := by
  induction h generalizing v with
  | outside _ => rfl
  | empty _ => rfl
  | number _ => rfl
  | text _ => rfl
  | cached _ _ => rfl
  | cycle _ _ => rfl
  | done _ _ _ _ ih => exact congrArg List.tail (ih rfl)
  | broken _ _ _ _ _ => cases hr
  | literal => rfl
  | reference _ ih => exact ih hr
  | plus _ _ ih₁ ih₂ => exact (ih₂ rfl).trans (ih₁ rfl)
  | plusLeft _ _ => cases hr
  | plusRight _ _ _ _ => cases hr

/-- A run keeps the books, whether it ends with a value or fails in the midst of a formula. -/
theorem Runs.kept (h : Runs store o x σ r σ') (hσ : σ.Kept) : σ'.Kept := by
  induction h with
  | outside _ => exact hσ
  | empty _ => exact hσ
  | number _ => exact hσ
  | text _ => exact hσ
  | cached _ _ => exact hσ.hit
  | cycle _ _ => exact hσ
  | @done o p f tree v σ σ' hp hs _ hrun ih =>
      have hp' := hrun.later.get?_of_begun (Table.get?_setFormula_self hp .inProgress 0) (by simp)
      exact (ih (hσ.enter hp hs)).leave (hrun.path_eq rfl) hp' rfl v
  | broken hp hs _ _ ih => exact ih (hσ.enter hp hs)
  | literal => exact hσ.visit
  | reference _ ih => exact ih hσ.visit
  | plus _ _ ih₁ ih₂ => exact ih₂ (ih₁ hσ.visit)
  | plusLeft _ ih => exact ih hσ.visit
  | plusRight _ _ ih₁ ih₂ => exact ih₂ (ih₁ hσ.visit)

variable {ps : List Position} {rs : Except EvalError Unit}

theorem RunsAll.path_eq (h : RunsAll store ps σ rs σ') (hr : rs = .ok ()) :
    σ'.evaluator.path = σ.evaluator.path := by
  induction h with
  | nil => rfl
  | skip _ _ ih => exact ih hr
  | next _ hrun _ ih => exact (ih hr).trans (hrun.path_eq rfl)
  | stop _ _ => cases hr

theorem RunsAll.kept (h : RunsAll store ps σ rs σ') (hσ : σ.Kept) : σ'.Kept := by
  induction h with
  | nil => exact hσ
  | skip _ _ ih => exact ih hσ
  | next _ hrun _ ih => exact ih (hrun.kept hσ)
  | stop _ hrun => exact hrun.kept hσ

end Runs

/-! ### Visited nodes -/

/-- The visited nodes are as many as were counted, each is there once, and each belongs to a formula
that was begun. -/
structure Watched.VisitedOnce (store : Store) (w : Watched) : Prop where
  nodup : w.visited.Nodup
  count_eq : w.state.evaluator.stats.nodesVisited = w.visited.length
  begun : ∀ id ∈ w.visited, ∃ p, w.state.table.Begun p ∧ w.state.table.Owns store p id

namespace Watched.VisitedOnce

/-- What a call visits belongs to formulas that waited before it, so it was not visited before. -/
theorem append {σ σ' : EvalState} {log more : List NodeId} (h : VisitedOnce store ⟨σ, log⟩)
    (hsep : σ.table.Separate store) (hlater : σ.table.Later σ'.table)
    (hfresh : Fresh store σ σ' [] more) : VisitedOnce store ⟨σ', more ++ log⟩ := by
  have hmore : ∀ i ∈ more, ∃ q, σ.table.waitsAt q = true ∧ σ'.table.Begun q ∧
      σ.table.Owns store q i := by
    intro i hi
    exact (hfresh.mem i hi).resolve_left List.not_mem_nil
  refine ⟨List.nodup_append'.2 ⟨hfresh.nodup, h.nodup, ?_⟩, ?_, ?_⟩
  · intro i hi hlog
    obtain ⟨q, hq, _, howns⟩ := hmore i hi
    obtain ⟨p, hp, howns'⟩ := h.begun i hlog
    obtain rfl := hsep.unique howns howns'
    exact Table.not_begun_of_waitsAt hq hp
  · have hcount := h.count_eq
    dsimp only at hcount ⊢
    rw [hfresh.count_eq, hcount, List.length_append, Nat.add_comm]
  · intro i hi
    rcases List.mem_append.1 hi with hi | hi
    · obtain ⟨q, _, hbegun, howns⟩ := hmore i hi
      exact ⟨q, hbegun, hlater.owns_iff.2 howns⟩
    · obtain ⟨p, hp, howns⟩ := h.begun i hi
      exact ⟨p, hlater.begun hp, hlater.owns_iff.2 howns⟩

theorem nodesVisited_le {w : Watched} (h : w.VisitedOnce store) (hsafe : w.state.table.Safe store) :
    w.state.evaluator.stats.nodesVisited ≤ w.state.table.begunNodes store := by
  obtain ⟨ids, hids, hlength⟩ := hsafe.exists_nodes
  have hsub : w.visited ⊆ ids := by
    intro i hi
    obtain ⟨p, hp, howns⟩ := h.begun i hi
    exact hids p i hp howns
  rw [h.count_eq, ← hlength]
  exact (List.subperm_of_subset h.nodup hsub).length_le

end Watched.VisitedOnce

/-! ### Calls -/

/-- What may be asked of an evaluator. -/
inductive Call where
  | cell (p : Position)
  | table

/-- The request that a call is. -/
def Call.request : Call → Request
  | .cell p => .evaluateCell p
  | .table => .evaluateTable

namespace Watched

/-- A table that was just read, and a new evaluator. -/
def start (t : Table) : Watched where
  state := ⟨t, {}⟩
  visited := []

/-- The state after a call, and all nodes that were visited until then. -/
def call (store : Store) (w : Watched) : Call → Watched
  | .cell p => ((Checked.askCell store p).exec w).2
  | .table => ((Checked.askTable store).exec w).2

/-- The state after some calls. -/
def calls (store : Store) (w : Watched) (cs : List Call) : Watched :=
  cs.foldl (call store) w

end Watched

/-- Whether there is a value. -/
def Answer.succeeded : Answer → Bool
  | .value result => result.isOk
  | .grid result => result.isOk
  | .done => true

namespace Session

/-- The table and its evaluator. -/
def state (s : Session) : EvalState where
  table := s.table
  evaluator := s.evaluator

/-- The answers to some requests. -/
def answers (s : Session) : List Request → List Answer
  | [] => []
  | request :: rest => (s.step request).1 :: (s.step request).2.answers rest

end Session

/-- What one call does. -/
theorem Watched.call_spec (w : Watched) (hsafe : w.state.table.Safe store) (c : Call) {s : Session}
    (hstore : s.store = store) (hstate : s.state = w.state) :
    ∃ σ more, w.call store c = ⟨σ, more ++ w.visited⟩ ∧ (s.step c.request).2.state = σ ∧
      w.state.table.Later σ.table ∧ Fresh store w.state σ [] more ∧ (w.state.Kept → σ.Kept) ∧
      ((s.step c.request).1.succeeded = true → σ.evaluator.path = w.state.evaluator.path) := by
  obtain ⟨⟨t, e⟩, log⟩ := w
  obtain ⟨rfl, rfl⟩ : s.table = t ∧ s.evaluator = e := by simpa [Session.state] using hstate
  subst hstore
  cases c with
  | cell p =>
      obtain ⟨r, σ, more, hcall, hrun, hexec, hfresh⟩ :=
        Checked.exec_askCell hsafe s.evaluator p log
      have hstep : s.step (Call.cell p).request = (.value (r.mapError .error),
          { s with evaluator := σ.evaluator, table := σ.table }) := by
        rw [Call.request, Session.step, hcall]
      rw [hstep]
      refine ⟨σ, more, congrArg Prod.snd hexec, rfl, hrun.later, hfresh, hrun.kept, ?_⟩
      intro hok
      cases r with
      | ok v => exact hrun.path_eq rfl
      | error err => cases hok
  | table =>
      obtain ⟨r, σ, more, hcall, hrun, hexec, hfresh⟩ :=
        Checked.exec_askTable hsafe s.evaluator log
      have hstep : s.step Call.table.request =
          (.grid ((r.map fun _ => σ.table.toGrid).mapError .error),
            { s with evaluator := σ.evaluator, table := σ.table }) := by
        rw [Call.request, Session.step, hcall]
      rw [hstep]
      refine ⟨σ, more, congrArg Prod.snd hexec, rfl, hrun.later, hfresh, hrun.kept, ?_⟩
      intro hok
      cases r with
      | ok u => exact hrun.path_eq rfl
      | error err => cases hok

/-- The books are in order: those of the evaluator, and those of the visited nodes. -/
structure Watched.InOrder (store : Store) (t : Table) (w : Watched) : Prop where
  later : t.Later w.state.table
  kept : w.state.Kept
  once : w.VisitedOnce store

/-- At the beginning nothing is begun. -/
theorem Watched.inOrder_start (h : ∀ p f, t.get? p = some (.formula f) → f.status = .unevaluated) :
    (start t).InOrder store t := by
  have hcells : t.begunCount = 0 := by
    rw [Table.begunCount, ← Array.countP_toList, List.countP_eq_zero]
    intro cell hcell
    obtain ⟨p, hp⟩ := Table.exists_get?_of_mem hcell
    cases cell with
    | formula f => exact fun hbegun => Cell.isBegun_formula.1 hbegun (h p f hp)
    | _ => exact Bool.false_ne_true
  refine ⟨.refl t, ⟨List.nodup_nil, ?_, hcells.symm⟩, ⟨List.nodup_nil, rfl, ?_⟩⟩
  · intro p
    refine iff_of_false List.not_mem_nil ?_
    rintro ⟨f, hf, hs⟩
    rw [h p f hf] at hs
    cases hs
  · intro id hid
    cases hid

/-- Calls, one after another, keep everything in order. -/
theorem Watched.calls_spec (hsafe : t.Safe store) (cs : List Call) {w : Watched} {s : Session}
    (hstore : s.store = store) (hstate : s.state = w.state) (h : w.InOrder store t) :
    (w.calls store cs).InOrder store t ∧
      (s.run (cs.map Call.request)).state = (w.calls store cs).state ∧
      ((∀ a ∈ s.answers (cs.map Call.request), a.succeeded = true) →
        (w.calls store cs).state.evaluator.path = w.state.evaluator.path) := by
  induction cs generalizing w s with
  | nil => exact ⟨h, hstate, fun _ => rfl⟩
  | cons c rest ih =>
      have hnow := h.later.safe hsafe
      obtain ⟨σ, more, hcall, hstep, hlater, hfresh, hkept, hpath⟩ :=
        w.call_spec hnow c hstore hstate
      have hnext : (w.call store c).InOrder store t := by
        rw [hcall]
        exact ⟨h.later.trans hlater, hkept h.kept, h.once.append hnow.separate hlater hfresh⟩
      have hstate' : (s.step c.request).2.state = (w.call store c).state := by rw [hstep, hcall]
      obtain ⟨hinOrder, hrun, hpaths⟩ :=
        ih ((s.store_step c.request).trans hstore) hstate' hnext
      refine ⟨hinOrder, hrun, ?_⟩
      intro hall
      obtain ⟨hfirst, hothers⟩ := List.forall_mem_cons.1 hall
      refine (hpaths hothers).trans ?_
      rw [hcall]
      exact hpath hfirst

/-- After any calls to one evaluator, of which any may have failed: the path is the formulas in
progress, each once, and empty as long as no call has failed; the formulas that were begun are
counted, and are no more than there are formulas; and no node of a formula was visited twice, so
there were no more visits than these formulas have nodes. The store may have held nodes before, as
long as every node has an id. -/
theorem session_bookkeeping {source : List Char} {before : Store}
    (hsource : byteLength source < 2 ^ 32) (hread : Table.read source before = (.ok t, store))
    (hstore : store.size < 2 ^ 32) (cs : List Call) :
    let now := (Session.start store t).run (cs.map Call.request)
    let watched := (Watched.start t).calls store cs
    (now.evaluator.path.Nodup ∧
      (∀ p, p ∈ now.evaluator.path ↔ now.table.HasStatus p .inProgress) ∧
      ((∀ a ∈ (Session.start store t).answers (cs.map Call.request), a.succeeded = true) →
        now.evaluator.path = [])) ∧
    (now.evaluator.stats.formulasEvaluated = now.table.begunCount ∧
      now.evaluator.stats.formulasEvaluated ≤ t.formulaCount ∧
      now.table.formulaCount = t.formulaCount) ∧
    watched.state = now.state ∧ watched.VisitedOnce store ∧
    now.evaluator.stats.nodesVisited ≤ now.table.begunNodes store := by
  have hsafe := Table.safe_of_read hsource hread (Nat.le_of_lt hstore)
  have hreads := Table.readsAs_of_size_le hread (Nat.le_of_lt hstore)
  have hstart : (Watched.start t).InOrder store t := by
    refine Watched.inOrder_start fun p f hf => ?_
    obtain ⟨_, _, hs, _⟩ := hreads.formula hf
    exact hs
  intro now watched
  obtain ⟨⟨hlater, hkept, honce⟩, hstate, hpath⟩ :=
    Watched.calls_spec hsafe cs (s := Session.start store t) rfl rfl hstart
  have hnodes := honce.nodesVisited_le (hlater.safe hsafe)
  -- The session without the list of visited nodes is in the same state, so its books are the same.
  rw [← hstate] at hlater hkept hnodes hpath
  have hcount : now.table.formulaCount = t.formulaCount := hlater.formulaCount_eq
  refine ⟨⟨hkept.path_nodup, hkept.mem_path_iff, hpath⟩, ⟨hkept.formulas_eq, ?_, hcount⟩,
    hstate.symm, honce, hnodes⟩
  rw [← hcount]
  exact hkept.formulas_eq.trans_le now.table.begunCount_le_formulaCount

theorem session_bookkeeping_of_failure :
    ∃ t store, Table.read "=A1+3\n=A0+B1|=2".toList .empty = (.ok t, store) ∧
      store.size < 2 ^ 32 ∧
      let now := (Session.start store t).run ([Call.cell ⟨1, 0⟩, .table].map Call.request)
      now.evaluator.path.Nodup ∧
        (∀ p, p ∈ now.evaluator.path ↔ now.table.HasStatus p .inProgress) ∧
        now.evaluator.stats.formulasEvaluated ≤ 3 := by
  have hcheck : Table.readsTo "=A1+3\n=A0+B1|=2".toList (fun t store => decide (
      store.size < 2 ^ 32 ∧ t.formulaCount = 3)) = true := by decide +kernel
  obtain ⟨t, store, hread, hcheck⟩ := Table.exists_of_readsTo hcheck
  obtain ⟨hstore, hcount⟩ := of_decide_eq_true hcheck
  obtain ⟨⟨hnodup, hmem, _⟩, ⟨_, hle, _⟩, _⟩ :=
    session_bookkeeping (by decide) hread hstore [.cell ⟨1, 0⟩, .table]
  exact ⟨t, store, hread, hstore, hnodup, hmem, hcount ▸ hle⟩

end PipeSheet
