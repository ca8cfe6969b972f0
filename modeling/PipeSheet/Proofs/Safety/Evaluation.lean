import PipeSheet.Proofs.Evaluation.Adequacy
import PipeSheet.Proofs.Safety.Checked
import PipeSheet.Proofs.Table.Layout
/-!
# PipeSheet.Proofs.Safety.Evaluation

**An evaluation uses no operation outside its domain, and visits no node twice.**

A table is safe to evaluate when its indices have 64 bits, its texts lie in its source, and its
formulas have nodes in the store that they share with no other. Evaluating changes none of that. So
a run of the program is a run with checks (`Runs.checked`), from any state that earlier calls have
left.

The visited nodes are those of the formulas that the run begins, and in the midst of a formula the
ones below the present node. Neither kind was visited before, and a formula that is begun once is
not begun again (`Fresh`).

* `Table.Safe`: what the checks need;
* `Fresh`: the nodes that a run visits;
* `Runs.checked`, `RunsAll.checked`: runs with checks.
-/

namespace PipeSheet

open Formula (Node NodeId Store Tree)
open Sheet (Subject)

variable {store : Store} {t t' : Table} {p q : Position}

/-! ### Tables that are safe to evaluate -/

namespace Table

/-- A formula was begun at a position. -/
def Begun (t : Table) (p : Position) : Prop :=
  ∃ f, t.get? p = some (.formula f) ∧ f.status ≠ .unevaluated

theorem not_begun_of_waitsAt (h : t.waitsAt p = true) : ¬ t.Begun p := by
  obtain ⟨f, hf, hs⟩ := waitsAt_iff.1 h
  rintro ⟨f', hf', hs'⟩
  rw [hf] at hf'
  cases hf'
  exact hs' hs

/-- What the checks need of a table. -/
structure Safe (store : Store) (t : Table) : Prop where
  area_lt : t.rows * t.cols < 2 ^ 64
  text?_eq : ∀ {p : Position} {span : Span} {content : List Char},
    t.get? p = some (.text span content) → t.text? span = some content
  separate : t.Separate store

/-- Every index is that of a position. -/
theorem getElem?_cells {i : Nat} (hi : i < t.rows * t.cols) :
    t.cells[i]? = t.get? ⟨i / t.cols, i % t.cols⟩ := by
  obtain ⟨hrow, hcol, hindex⟩ := Position.inside_of_index_lt hi
  have hinside : t.Contains ⟨i / t.cols, i % t.cols⟩ := ⟨hrow, hcol⟩
  rw [get?_of_contains hinside]
  exact congrArg (t.cells[·]?) hindex.symm

/-- Every cell stands at a position. -/
theorem exists_get?_of_mem {cell : Cell} (h : cell ∈ t.cells.toList) :
    ∃ p, t.get? p = some cell := by
  obtain ⟨i, hi, rfl⟩ := List.getElem_of_mem h
  rw [Array.length_toList] at hi
  refine ⟨_, (getElem?_cells (t.size_cells ▸ hi)).symm.trans ?_⟩
  simp [hi]

namespace Later

theorem begun (h : t.Later t') (hp : t.Begun p) : t'.Begun p := by
  obtain ⟨f, hf, hs⟩ := hp
  exact ⟨f, h.get?_of_begun hf hs, hs⟩

/-- The nodes of a formula do not change. -/
theorem owns_iff (h : t.Later t') {id : NodeId} : t'.Owns store p id ↔ t.Owns store p id := by
  constructor
  · rintro ⟨f, tree, ids, hf, hlayout, hid⟩
    obtain ⟨f₀, hf₀, hroot⟩ := h.exists_formula_before hf
    exact ⟨f₀, tree, ids, hf₀, hroot ▸ hlayout, hid⟩
  · rintro ⟨f, tree, ids, hf, hlayout, hid⟩
    rcases h.cell_eq p with heq | ⟨f₀, f', hf₀, _, hf', hroot⟩
    · exact ⟨f, tree, ids, heq ▸ hf, hlayout, hid⟩
    · rw [hf] at hf₀
      cases hf₀
      exact ⟨f', tree, ids, hf', hroot ▸ hlayout, hid⟩

theorem safe (h : t.Later t') (hsafe : t.Safe store) : t'.Safe store := by
  refine ⟨?_, fun {p span content} hp => ?_, ⟨fun {p f} hp => ?_, fun hp hq => ?_⟩⟩
  · rw [h.rows_eq, h.cols_eq]
    exact hsafe.area_lt
  · rw [text?, h.source_eq]
    rcases h.cell_eq p with heq | ⟨_, _, _, _, hf', _⟩
    · exact hsafe.text?_eq (heq ▸ hp)
    · rw [hp] at hf'
      cases hf'
  · obtain ⟨f₀, hf₀, hroot⟩ := h.exists_formula_before hp
    rw [hroot]
    exact hsafe.separate.exists_layout hf₀
  · exact hsafe.separate.unique (h.owns_iff.1 hp) (h.owns_iff.1 hq)

end Later

/-- A table that was just read is safe. -/
theorem ReadsAs.safe {source : List Char} (h : t.ReadsAs source store)
    (hsize : Text.byteLength source < 2 ^ 32) (harea : t.rows * t.cols < 2 ^ 64)
    (hseparate : t.Separate store) : t.Safe store := by
  refine ⟨harea, fun hp => ?_, hseparate⟩
  obtain ⟨_, _, _, hspan⟩ := h.text hsize hp
  exact hspan

end Table

/-! ### Checked operations -/

namespace Checked

theorem index_eq (harea : t.rows * t.cols < 2 ^ 64) (hp : t.Contains p) :
    index t.cols p = .ok (t.index p) := by
  have hlt := Table.index_lt hp
  rw [t.size_cells] at hlt
  exact if_pos (Nat.lt_trans hlt harea)

theorem get?_eq (harea : t.rows * t.cols < 2 ^ 64) (p : Position) : get? t p = .ok (t.get? p) := by
  unfold get?
  by_cases hp : t.Contains p
  · rw [if_pos hp, index_eq harea hp, Table.get?_of_contains hp,
      Array.getElem?_eq_getElem (Table.index_lt hp)]
    simp only [bind, Except.bind]
    rw [Array.getElem?_eq_getElem (Table.index_lt hp)]
  · rw [if_neg hp, Table.get?_of_not_contains hp]

theorem setFormula_eq (harea : t.rows * t.cols < 2 ^ 64) (hp : t.Contains p) (status : Status)
    (v : Float) : setFormula t p status v = .ok (t.setFormula p status v) := by
  rw [setFormula, index_eq harea hp]
  rfl

theorem text_eq {span : Span} {content : List Char} (h : t.text? span = some content) :
    text t span = .ok content := by
  rw [text, h]

theorem node_eq {id : NodeId} {node : Node} (h : store.get? id = some node) :
    Checked.node store id = .ok node := by
  rw [Checked.node, h]

theorem toGrid_eq (h : t.Safe store) : toGrid t = .ok t.toGrid := by
  have hvalues : ∀ cells : List Cell, (∀ cell ∈ cells, cell ∈ t.cells.toList) →
      cells.mapM (value t) = .ok (cells.map Cell.value) := by
    intro cells
    induction cells with
    | nil => exact fun _ => rfl
    | cons cell rest ih =>
        intro hmem
        have hcell : value t cell = .ok cell.value := by
          cases cell with
          | text span content =>
              obtain ⟨p, hp⟩ := Table.exists_get?_of_mem (hmem _ List.mem_cons_self)
              rw [value, text_eq (h.text?_eq hp)]
              rfl
          | _ => rfl
        rw [List.mapM_cons, hcell, ih fun c hc => hmem c (List.mem_cons_of_mem _ hc)]
        rfl
  have hlength : (t.cells.toList.map Cell.value).length = t.rows * t.cols := by
    rw [List.length_map, Array.length_toList, t.size_cells]
  rw [toGrid, hvalues _ fun _ hc => hc]
  show (if h : (t.cells.toList.map Cell.value).length = t.rows * t.cols then Except.ok _
    else Except.error Panic.noShape) = _
  have harray : (t.cells.toList.map Cell.value).toArray = t.cells.map Cell.value :=
    Array.toList_inj.1 (by rw [Array.toList_map])
  rw [dif_pos hlength]
  simp only [harray, Table.toGrid]

/-- The part of a path that is left out ends before the path does. -/
theorem cycleTo_eq (e : Evaluator) (p : Position) : cycleTo e p = .ok (e.cycleTo p) := by
  have hmem : ∀ path : List Position, p ∈ path → ∃ i, path.findIdx? (· = p) = some i ∧
      i ≤ path.length ∧ path.drop i = path.dropWhile (· ≠ p) := by
    intro path
    induction path with
    | nil => exact fun h => absurd h List.not_mem_nil
    | cons q rest ih =>
        intro h
        by_cases hq : q = p
        · exact ⟨0, by simp [List.findIdx?_cons, hq], Nat.zero_le _, by simp [hq]⟩
        · obtain ⟨i, hi, hle, hdrop⟩ := ih ((List.mem_cons.1 h).resolve_left (Ne.symm hq))
          exact ⟨i + 1, by simp [List.findIdx?_cons, hq, hi], Nat.succ_le_succ hle,
            by simpa [hq] using hdrop⟩
  unfold cycleTo Evaluator.cycleTo
  dsimp only
  by_cases h : p ∈ e.path.reverse
  · obtain ⟨i, hi, hle, hdrop⟩ := hmem _ h
    rw [hi, Option.getD_some, if_pos hle, if_pos h, hdrop]
  · have hnone : e.path.reverse.findIdx? (· = p) = none := by
      rw [List.findIdx?_eq_none_iff]
      intro q hq
      have hne : q ≠ p := by
        rintro rfl
        exact h hq
      simpa using hne
    rw [hnone, Option.getD_none, if_pos (Nat.zero_le _), if_neg h, List.drop_zero]

end Checked

/-! ### Computations on watched states -/

/-- Runs a computation on a state: its result and the state after it. -/
def CheckM.exec {α : Type} (m : CheckM α) (w : Watched) : Except Stop α × Watched :=
  m.run.run w

namespace CheckM

variable {α β : Type} {w w' : Watched} {m : CheckM α}

theorem exec_bind_of_ok {a : α} (h : m.exec w = (.ok a, w')) (k : α → CheckM β) :
    exec (m >>= k) w = (k a).exec w' := by
  unfold exec at h ⊢
  simp only [ExceptT.run_bind, StateT.run_bind, h]
  rfl

theorem exec_bind_of_error {e : Stop} (h : m.exec w = (.error e, w')) (k : α → CheckM β) :
    exec (m >>= k) w = (.error e, w') := by
  unfold exec at h ⊢
  simp only [ExceptT.run_bind, StateT.run_bind, h]
  rfl

theorem exec_get_bind (k : Watched → CheckM β) : exec (get >>= k) w = (k w).exec w :=
  exec_bind_of_ok (show exec get w = (.ok w, w) from rfl) k

theorem exec_need_bind {x : Except Panic α} {a : α} (h : x = .ok a) (k : α → CheckM β) :
    exec (Checked.need x >>= k) w = (k a).exec w := by
  subst h
  exact exec_bind_of_ok (show exec (Checked.need (.ok a)) w = (.ok a, w) from rfl) k

theorem exec_visit_bind (id : NodeId) (k : Unit → CheckM β) :
    exec (Checked.visit id >>= k) w = (k ()).exec ⟨w.state.visit, id :: w.visited⟩ :=
  exec_bind_of_ok
    (show exec (Checked.visit id) w = (.ok (), ⟨w.state.visit, id :: w.visited⟩) from rfl) k

theorem exec_modifyState_bind (change : EvalState → EvalState) (k : Unit → CheckM β) :
    exec (Checked.modifyState change >>= k) w = (k ()).exec ⟨change w.state, w.visited⟩ :=
  exec_bind_of_ok
    (show exec (Checked.modifyState change) w = (.ok (), ⟨change w.state, w.visited⟩) from rfl) k

theorem exec_enter_bind (harea : w.state.table.rows * w.state.table.cols < 2 ^ 64)
    (hp : w.state.table.Contains p) (k : Unit → CheckM β) :
    exec (Checked.enter p >>= k) w = (k ()).exec ⟨w.state.enter p, w.visited⟩ := by
  refine exec_bind_of_ok ?_ k
  rw [Checked.enter, exec_get_bind, exec_need_bind (Checked.setFormula_eq harea hp _ _)]
  rfl

theorem exec_leave_bind (harea : w.state.table.rows * w.state.table.cols < 2 ^ 64)
    (hp : w.state.table.Contains p) (v : Float) (k : Unit → CheckM β) :
    exec (Checked.leave p v >>= k) w = (k ()).exec ⟨w.state.leave p v, w.visited⟩ := by
  refine exec_bind_of_ok ?_ k
  rw [Checked.leave, exec_get_bind, exec_need_bind (Checked.setFormula_eq harea hp _ _)]
  rfl

end CheckM

/-! ### Visited nodes -/

variable {σ σ₁ σ' : EvalState} {own : List NodeId} {ids more more₁ more₂ : List NodeId}

/-- The nodes that a run visits: each once, and counted, and each is below the present node or
belongs to a formula that the run begins. -/
structure Fresh (store : Store) (σ σ' : EvalState) (own more : List NodeId) : Prop where
  nodup : more.Nodup
  count_eq : σ'.evaluator.stats.nodesVisited = σ.evaluator.stats.nodesVisited + more.length
  mem : ∀ i ∈ more, i ∈ own ∨
    ∃ q, σ.table.waitsAt q = true ∧ σ'.table.Begun q ∧ σ.table.Owns store q i

/-- The nodes belong to no formula that waits to be begun. -/
def Taken (store : Store) (t : Table) (own : List NodeId) : Prop :=
  ∀ i ∈ own, ∀ q, t.waitsAt q = true → ¬ t.Owns store q i

theorem Taken.later (h : Taken store t own) (hlater : t.Later t') : Taken store t' own :=
  fun i hi q hq howns => h i hi q (hlater.waitsAt hq) (hlater.owns_iff.1 howns)

namespace Fresh

theorem nothing (store : Store) (own : List NodeId) {σ σ' : EvalState}
    (h : σ'.evaluator.stats.nodesVisited = σ.evaluator.stats.nodesVisited) :
    Fresh store σ σ' own [] :=
  ⟨.nil, h, fun _ hi => absurd hi List.not_mem_nil⟩

/-- A node is visited, and then what is below it. -/
theorem visit {id : NodeId} (h : Fresh store σ.visit σ' own more) (hid : id ∉ own)
    (htaken : Taken store σ.table (id :: own)) : Fresh store σ σ' (id :: own) (more ++ [id]) := by
  refine ⟨?_, ?_, fun i hi => ?_⟩
  · refine List.nodup_append_comm.1 (List.nodup_cons.2 ⟨fun hmem => ?_, h.nodup⟩)
    rcases h.mem id hmem with hmem | ⟨q, hq, _, howns⟩
    · exact hid hmem
    · exact htaken id List.mem_cons_self q hq howns
  · rw [h.count_eq, List.length_append]
    simp only [EvalState.visit, List.length_singleton]
    omega
  · rcases List.mem_append.1 hi with hi | hi
    · exact (h.mem i hi).imp_left (List.mem_cons_of_mem id)
    · rw [List.mem_singleton.1 hi]
      exact .inl List.mem_cons_self

/-- Visiting a part of the nodes is visiting some of all nodes. -/
theorem mono {own' : List NodeId} (h : Fresh store σ σ' own more) (hsub : own ⊆ own') :
    Fresh store σ σ' own' more :=
  ⟨h.nodup, h.count_eq, fun i hi => (h.mem i hi).imp_left fun hi => hsub hi⟩

/-- One run after another. The second one visits nothing that the first one did, because what the
first one began does not wait any more. -/
theorem append {ls rs : List NodeId} (h₁ : Fresh store σ σ₁ ls more₁)
    (h₂ : Fresh store σ₁ σ' rs more₂) (hlater₁ : σ.table.Later σ₁.table)
    (hlater₂ : σ₁.table.Later σ'.table) (hsep : σ.table.Separate store)
    (hdisjoint : ls.Disjoint rs) (htaken : Taken store σ.table (ls ++ rs)) :
    Fresh store σ σ' (ls ++ rs) (more₂ ++ more₁) := by
  have htaken₁ := htaken.later hlater₁
  refine ⟨List.nodup_append'.2 ⟨h₂.nodup, h₁.nodup, fun i hi₂ hi₁ => ?_⟩, ?_, fun i hi => ?_⟩
  · rcases h₁.mem i hi₁ with hl | ⟨q, hq, hbegun, howns⟩
    · rcases h₂.mem i hi₂ with hr | ⟨q, hq, _, howns⟩
      · exact hdisjoint hl hr
      · exact htaken₁ i (List.mem_append_left _ hl) q hq howns
    · rcases h₂.mem i hi₂ with hr | ⟨q', hq', _, howns'⟩
      · exact htaken i (List.mem_append_right _ hr) q hq howns
      · obtain rfl := hsep.unique howns (hlater₁.owns_iff.1 howns')
        exact Table.not_begun_of_waitsAt hq' hbegun
  · rw [h₂.count_eq, h₁.count_eq, List.length_append]
    omega
  · rcases List.mem_append.1 hi with hi | hi
    · rcases h₂.mem i hi with hi | ⟨q, hq, hbegun, howns⟩
      · exact .inl (List.mem_append_right _ hi)
      · exact .inr ⟨q, hlater₁.waitsAt hq, hbegun, hlater₁.owns_iff.1 howns⟩
    · rcases h₁.mem i hi with hi | ⟨q, hq, hbegun, howns⟩
      · exact .inl (List.mem_append_left _ hi)
      · exact .inr ⟨q, hq, hlater₂.begun hbegun, howns⟩

/-- A formula that waits is begun, and its own nodes are visited. -/
theorem formula {f : FormulaCell} {tree : Tree} {σ'' : EvalState}
    (h : Fresh store (σ.enter p) σ' ids more) (hp : σ.table.get? p = some (.formula f))
    (hs : f.status = .unevaluated) (hlayout : store.Layout f.root tree ids)
    (hlater : (σ.enter p).table.Later σ'.table)
    (hbegun : ∀ q, σ'.table.Begun q → σ''.table.Begun q)
    (hcount : σ''.evaluator.stats.nodesVisited = σ'.evaluator.stats.nodesVisited) :
    Fresh store σ σ'' own more := by
  have henter : σ.table.Later (σ.enter p).table := .of_setFormula hp hs .inProgress 0
  refine ⟨h.nodup, hcount.trans h.count_eq, fun i hi => .inr ?_⟩
  rcases h.mem i hi with hi | ⟨q, hq, hq', howns⟩
  · have hp' : (σ.enter p).table.Begun p :=
      ⟨_, Table.get?_setFormula_self hp .inProgress 0, by simp⟩
    exact ⟨p, Table.waitsAt_iff.2 ⟨f, hp, hs⟩, hbegun p (hlater.begun hp'), f, tree, ids, hp,
      hlayout, hi⟩
  · exact ⟨q, henter.waitsAt hq, hbegun q hq', henter.owns_iff.1 howns⟩

end Fresh

/-- The nodes of a formula that was begun are taken. -/
theorem taken_of_enter {f : FormulaCell} {tree : Tree} (hsep : σ.table.Separate store)
    (hp : σ.table.get? p = some (.formula f)) (hs : f.status = .unevaluated)
    (hlayout : store.Layout f.root tree ids) : Taken store (σ.enter p).table ids := by
  have henter : σ.table.Later (σ.enter p).table := .of_setFormula hp hs .inProgress 0
  intro i hi q hq howns
  obtain rfl := hsep.unique (henter.owns_iff.1 howns) ⟨f, tree, ids, hp, hlayout, hi⟩
  exact Table.not_begun_of_waitsAt hq ⟨_, Table.get?_setFormula_self hp .inProgress 0, by simp⟩

theorem Table.Begun.setFormula {f : FormulaCell} (h : t.Begun q)
    (hp : t.get? p = some (.formula f)) (v : Float) : (t.setFormula p .evaluated v).Begun q := by
  by_cases hq : q = p
  · subst hq
    exact ⟨_, get?_setFormula_self hp .evaluated v, by simp⟩
  · obtain ⟨g, hg, hs⟩ := h
    exact ⟨g, (get?_setFormula_of_ne hp .evaluated v hq).trans hg, hs⟩

/-! ### Runs with checks -/

/-- What a run without checks does, the checked program does from the same state. -/
def CheckedRun (store : Store) (o : Option Position) (σ : EvalState) (r : Except EvalError Float)
    (σ' : EvalState) : Subject → Prop
  | .place p => ∀ depth log, σ.table.waiting ≤ depth → ∃ more,
      (Checked.resolve store depth o p).exec ⟨σ, log⟩ =
        (r.mapError fun e => .halt (.error e), ⟨σ', more ++ log⟩) ∧
      Fresh store σ σ' [] more
  | .tree tree => ∀ depth log id ids fuel, σ.table.waiting ≤ depth → store.Layout id tree ids →
      ids.Nodup → id.index < fuel → Taken store σ.table ids → ∃ more,
      (Checked.evaluateNode (Checked.resolve store depth o) store fuel id).exec ⟨σ, log⟩ =
        (r.mapError fun e => .halt (.error e), ⟨σ', more ++ log⟩) ∧
      Fresh store σ σ' ids more

namespace Checked

variable {o : Option Position} {log : List NodeId} {r : Except EvalError Float}

theorem exec_lookUp (harea : σ.table.rows * σ.table.cols < 2 ^ 64)
    (begin : FormulaCell → CheckM Float) : (lookUp begin o p).exec ⟨σ, log⟩ =
      (resolveCell begin o p σ (σ.table.get? p)).exec ⟨σ, log⟩ := by
  rw [lookUp, CheckM.exec_get_bind, CheckM.exec_need_bind (get?_eq harea p)]

/-- A place that begins no formula is answered at once, whatever the depth. -/
theorem checkedRun_of_answer (hsafe : σ.table.Safe store)
    (hanswer : ∀ begin log, (resolveCell begin o p σ (σ.table.get? p)).exec ⟨σ, log⟩ =
      (r.mapError fun e => .halt (.error e), ⟨σ', log⟩))
    (hcount : σ'.evaluator.stats.nodesVisited = σ.evaluator.stats.nodesVisited) :
    CheckedRun store o σ r σ' (.place p) := by
  refine fun depth log _ => ⟨[], ?_, .nothing store [] hcount⟩
  cases depth with
  | zero => exact (exec_lookUp hsafe.area_lt _).trans (hanswer _ log)
  | succ depth => exact (exec_lookUp hsafe.area_lt _).trans (hanswer _ log)

/-- A formula that waits is begun. -/
theorem exec_resolve_of_unevaluated {f : FormulaCell} {depth : Nat} (hsafe : σ.table.Safe store)
    (hp : σ.table.get? p = some (.formula f)) (hs : f.status = .unevaluated) :
    (resolve store (depth + 1) o p).exec ⟨σ, log⟩ =
      (evaluateNode (resolve store depth (some p)) store store.size f.root >>= fun value => do
        leave p value
        return value).exec ⟨σ.enter p, log⟩ := by
  rw [resolve, exec_lookUp hsafe.area_lt, hp, resolveCell, hs]
  exact CheckM.exec_enter_bind hsafe.area_lt (Table.contains_of_get? hp) _

theorem exec_evaluateNode (resolve : Position → CheckM Float) {id : NodeId} (fuel : Nat) :
    ∀ node, store.get? id = some node → (evaluateNode resolve store (fuel + 1) id).exec ⟨σ, log⟩ =
      (match node with
        | .number value => return value
        | .ref target => resolve target
        | .plus lhs rhs => do
          let l ← evaluateNode resolve store fuel lhs
          let r ← evaluateNode resolve store fuel rhs
          return l + r : CheckM Float).exec ⟨σ.visit, id :: log⟩ := by
  intro node hget
  rw [evaluateNode, CheckM.exec_visit_bind]
  refine (CheckM.exec_need_bind (node_eq hget) _).trans ?_
  cases node <;> rfl

end Checked

theorem exists_eq_succ_of_lt {m n : Nat} (h : m < n) : ∃ k, n = k + 1 :=
  ⟨n - 1, by omega⟩

namespace CheckedRun

variable {o : Option Position} {r : Except EvalError Float} {σ₂ : EvalState}

/-- The nodes of a formula that waits are visited once it is begun. -/
theorem of_unevaluated {f : FormulaCell} {tree : Tree} {depth : Nat}
    (h : CheckedRun store (some p) (σ.enter p) r σ' (.tree tree)) (hsafe : σ.table.Safe store)
    (hp : σ.table.get? p = some (.formula f)) (hs : f.status = .unevaluated)
    (htree : store.tree? f.root = some tree) (log : List NodeId)
    (hdepth : (σ.enter p).table.waiting ≤ depth) : ∃ more ids,
      (Checked.evaluateNode (Checked.resolve store depth (some p)) store store.size f.root).exec
          ⟨σ.enter p, log⟩ = (r.mapError fun e => .halt (.error e), ⟨σ', more ++ log⟩) ∧
      store.Layout f.root tree ids ∧ Fresh store (σ.enter p) σ' ids more := by
  obtain ⟨tree', ids, hlayout, hnodup⟩ := hsafe.separate.exists_layout hp
  obtain rfl : tree' = tree := Option.some.inj (hlayout.tree?_eq.symm.trans htree)
  obtain ⟨more, hexec, hfresh⟩ := h depth log f.root ids store.size hdepth hlayout hnodup
    hlayout.index_lt_size (taken_of_enter hsafe.separate hp hs hlayout)
  exact ⟨more, ids, hexec, hlayout, hfresh⟩

/-- A sum whose left side has a value ends as its right side does. -/
theorem plus {lhs rhs : Tree} {a : Float} (h₁ : CheckedRun store o σ.visit (.ok a) σ₁ (.tree lhs))
    (h₂ : CheckedRun store o σ₁ r σ₂ (.tree rhs)) (hlater₁ : σ.table.Later σ₁.table)
    (hlater₂ : σ₁.table.Later σ₂.table) (hsep : σ.table.Separate store) :
    CheckedRun store o σ (r.map fun b => a + b) σ₂ (.tree (.plus lhs rhs)) := by
  intro depth log id ids fuel hdepth hlayout hnodup hfuel htaken
  obtain ⟨fuel, rfl⟩ := exists_eq_succ_of_lt hfuel
  cases hlayout with
  | @plus _ left right _ _ ls rs hget hl hr hleft hright =>
      obtain ⟨hid, hnodup⟩ := List.nodup_cons.1 hnodup
      obtain ⟨hnodupl, hnodupr, hdisjoint⟩ := List.nodup_append'.1 hnodup
      have hbelow : Taken store σ.table (ls ++ rs) :=
        fun i hi => htaken i (List.mem_cons_of_mem _ hi)
      obtain ⟨more₁, hexec₁, hfresh₁⟩ := h₁ depth (id :: log) left ls fuel hdepth hleft hnodupl
        (by omega) fun i hi => hbelow i (List.mem_append_left _ hi)
      obtain ⟨more₂, hexec₂, hfresh₂⟩ := h₂ depth (more₁ ++ id :: log) right rs fuel
        (Nat.le_trans hlater₁.waiting_le hdepth) hright hnodupr (by omega)
        fun i hi => hbelow.later hlater₁ i (List.mem_append_right _ hi)
      have hfresh : Fresh store σ.visit σ₂ (ls ++ rs) (more₂ ++ more₁) :=
        hfresh₁.append hfresh₂ hlater₁ hlater₂ hsep hdisjoint hbelow
      refine ⟨more₂ ++ more₁ ++ [id], ?_, hfresh.visit hid htaken⟩
      rw [Checked.exec_evaluateNode _ _ _ hget, CheckM.exec_bind_of_ok hexec₁, List.append_assoc,
        List.append_assoc]
      cases r with
      | ok b => exact CheckM.exec_bind_of_ok hexec₂ _
      | error e => exact CheckM.exec_bind_of_error hexec₂ _

end CheckedRun

/-- Every run of the program is one with checks, and visits no node twice. -/
theorem Runs.checked {o : Option Position} {x : Subject} {r : Except EvalError Float}
    (h : Runs store o x σ r σ') (hsafe : σ.table.Safe store) : CheckedRun store o σ r σ' x := by
  induction h with
  | outside hp =>
      refine Checked.checkedRun_of_answer hsafe (fun begin log => ?_) rfl
      rw [hp]
      rfl
  | empty hp =>
      refine Checked.checkedRun_of_answer hsafe (fun begin log => ?_) rfl
      rw [hp]
      rfl
  | number hp =>
      refine Checked.checkedRun_of_answer hsafe (fun begin log => ?_) rfl
      rw [hp]
      rfl
  | text hp =>
      refine Checked.checkedRun_of_answer hsafe (fun begin log => ?_) rfl
      rw [hp, Checked.resolveCell, CheckM.exec_need_bind (Checked.text_eq (hsafe.text?_eq hp))]
      rfl
  | cached hp hs =>
      refine Checked.checkedRun_of_answer hsafe (fun begin log => ?_) rfl
      rw [hp, Checked.resolveCell, hs]
      exact CheckM.exec_modifyState_bind _ _
  | @cycle o p f σ hp hs =>
      refine Checked.checkedRun_of_answer hsafe (fun begin log => ?_) rfl
      rw [hp, Checked.resolveCell, hs]
      dsimp only
      rw [CheckM.exec_need_bind (Checked.cycleTo_eq σ.evaluator p)]
      rfl
  | @done o p f tree v σ σ' hp hs htree hrun ih =>
      intro depth log hdepth
      have hlt : (σ.enter p).table.waiting < σ.table.waiting := Table.waiting_setFormula_lt hp hs
      obtain ⟨depth, rfl⟩ := exists_eq_succ_of_lt (Nat.lt_of_lt_of_le hlt hdepth)
      have hdepth' : (σ.enter p).table.waiting ≤ depth := by omega
      have henter : σ.table.Later (σ.enter p).table := .of_setFormula hp hs .inProgress 0
      have hsafe₁ := henter.safe hsafe
      have hsafe' := hrun.later.safe hsafe₁
      have hp' := hrun.later.get?_of_begun (Table.get?_setFormula_self hp .inProgress 0) (by simp)
      obtain ⟨more, ids, hexec, hlayout, hfresh⟩ :=
        (ih hsafe₁).of_unevaluated hsafe hp hs htree log hdepth'
      refine ⟨more, ?_,
        hfresh.formula hp hs hlayout hrun.later (fun q hq => hq.setFormula hp' v) rfl⟩
      rw [Checked.exec_resolve_of_unevaluated hsafe hp hs, CheckM.exec_bind_of_ok hexec]
      exact CheckM.exec_leave_bind hsafe'.area_lt (Table.contains_of_get? hp') v _
  | @broken o p f tree e σ σ' hp hs htree hrun ih =>
      intro depth log hdepth
      have hlt : (σ.enter p).table.waiting < σ.table.waiting := Table.waiting_setFormula_lt hp hs
      obtain ⟨depth, rfl⟩ := exists_eq_succ_of_lt (Nat.lt_of_lt_of_le hlt hdepth)
      have hdepth' : (σ.enter p).table.waiting ≤ depth := by omega
      have henter : σ.table.Later (σ.enter p).table := .of_setFormula hp hs .inProgress 0
      obtain ⟨more, ids, hexec, hlayout, hfresh⟩ :=
        (ih (henter.safe hsafe)).of_unevaluated hsafe hp hs htree log hdepth'
      refine ⟨more, ?_, hfresh.formula hp hs hlayout hrun.later (fun q hq => hq) rfl⟩
      rw [Checked.exec_resolve_of_unevaluated hsafe hp hs]
      exact CheckM.exec_bind_of_error hexec _
  | literal =>
      intro depth log id ids fuel _ hlayout _ hfuel htaken
      obtain ⟨fuel, rfl⟩ := exists_eq_succ_of_lt hfuel
      cases hlayout with
      | number hget =>
          refine ⟨[id], ?_, (Fresh.nothing store [] rfl).visit List.not_mem_nil htaken⟩
          rw [Checked.exec_evaluateNode _ _ _ hget]
          rfl
  | reference hrun ih =>
      intro depth log id ids fuel hdepth hlayout _ hfuel htaken
      obtain ⟨fuel, rfl⟩ := exists_eq_succ_of_lt hfuel
      cases hlayout with
      | ref hget =>
          obtain ⟨more, hexec, hfresh⟩ := ih hsafe depth (id :: log) hdepth
          refine ⟨more ++ [id], ?_, hfresh.visit List.not_mem_nil htaken⟩
          rw [Checked.exec_evaluateNode _ _ _ hget, List.append_assoc]
          exact hexec
  | @plus o lhs rhs a b σ σ₁ σ₂ hrun₁ hrun₂ ih₁ ih₂ =>
      have hlater : σ.table.Later σ₁.table := hrun₁.later
      exact CheckedRun.plus (ih₁ hsafe) (ih₂ (hlater.safe hsafe)) hlater hrun₂.later hsafe.separate
  | @plusLeft o lhs rhs e σ σ' hrun ih =>
      intro depth log id ids fuel hdepth hlayout hnodup hfuel htaken
      obtain ⟨fuel, rfl⟩ := exists_eq_succ_of_lt hfuel
      cases hlayout with
      | @plus _ l r _ _ ls rs hget hl hr hleft hright =>
          obtain ⟨hid, hnodup⟩ := List.nodup_cons.1 hnodup
          obtain ⟨hnodupl, _, _⟩ := List.nodup_append'.1 hnodup
          obtain ⟨more, hexec, hfresh⟩ := ih hsafe depth (id :: log) l ls fuel hdepth hleft
            hnodupl (by omega) fun i hi =>
              htaken i (List.mem_cons_of_mem _ (List.mem_append_left _ hi))
          have hfresh : Fresh store σ.visit σ' (ls ++ rs) more :=
            hfresh.mono (List.subset_append_left ls rs)
          refine ⟨more ++ [id], ?_, hfresh.visit hid htaken⟩
          rw [Checked.exec_evaluateNode _ _ _ hget, CheckM.exec_bind_of_error hexec,
            List.append_assoc]
          rfl
  | @plusRight o lhs rhs a e σ σ₁ σ₂ hrun₁ hrun₂ ih₁ ih₂ =>
      have hlater : σ.table.Later σ₁.table := hrun₁.later
      exact CheckedRun.plus (ih₁ hsafe) (ih₂ (hlater.safe hsafe)) hlater hrun₂.later hsafe.separate

theorem RunsAll.checked {ps : List Position} {r : Except EvalError Unit}
    (h : RunsAll store ps σ r σ') (hsafe : σ.table.Safe store) {depth : Nat}
    (hdepth : σ.table.waiting ≤ depth) (log : List NodeId) : ∃ more,
      (Checked.resolveAll store depth ps).exec ⟨σ, log⟩ =
        (r.mapError fun e => .halt (.error e), ⟨σ', more ++ log⟩) ∧ Fresh store σ σ' [] more := by
  induction h generalizing log with
  | nil => exact ⟨[], rfl, .nothing store [] rfl⟩
  | @skip p rest r σ σ' hother hrun ih =>
      obtain ⟨more, hexec, hfresh⟩ := ih hsafe hdepth log
      refine ⟨more, ?_, hfresh⟩
      rw [Checked.resolveAll, CheckM.exec_get_bind,
        CheckM.exec_need_bind (Checked.get?_eq hsafe.area_lt p), ← hexec]
      cases hcell : σ.table.get? p with
      | none => rfl
      | some cell =>
          cases cell with
          | formula f => exact absurd hcell (hother f)
          | _ => rfl
  | @next p rest f v r σ σ₁ σ₂ hp hrun hrest ih =>
      have hlater : σ.table.Later σ₁.table := hrun.later
      obtain ⟨more₁, hexec₁, hfresh₁⟩ := hrun.checked hsafe depth log hdepth
      obtain ⟨more₂, hexec₂, hfresh₂⟩ := ih (hlater.safe hsafe)
        (Nat.le_trans hlater.waiting_le hdepth) (more₁ ++ log)
      refine ⟨more₂ ++ more₁, ?_, ?_⟩
      · rw [Checked.resolveAll, CheckM.exec_get_bind,
          CheckM.exec_need_bind (Checked.get?_eq hsafe.area_lt p), hp, List.append_assoc, ← hexec₂]
        exact CheckM.exec_bind_of_ok (CheckM.exec_bind_of_ok hexec₁ fun _ => pure ()) _
      · exact hfresh₁.append hfresh₂ hlater hrest.later hsafe.separate (List.disjoint_nil_left [])
          fun i hi => absurd hi List.not_mem_nil
  | @stop p rest f e σ σ' hp hrun =>
      obtain ⟨more, hexec, hfresh⟩ := hrun.checked hsafe depth log hdepth
      refine ⟨more, ?_, hfresh⟩
      rw [Checked.resolveAll, CheckM.exec_get_bind,
        CheckM.exec_need_bind (Checked.get?_eq hsafe.area_lt p), hp]
      exact CheckM.exec_bind_of_error (CheckM.exec_bind_of_error hexec fun _ => pure ()) _

/-! ### Calls -/

theorem Table.Safe.rooted (h : t.Safe store) : t.Rooted store := by
  intro p f hp
  obtain ⟨tree, _, hlayout, _⟩ := h.separate.exists_layout hp
  exact ⟨tree, hlayout.tree?_eq⟩

namespace Checked

/-- Asking for a cell with checks is a run, and it is what the program does. -/
theorem exec_askCell (hsafe : t.Safe store) (e : Evaluator) (p : Position) (log : List NodeId) :
    ∃ r σ' more, e.evaluateCell store t p = (r.mapError .error, σ'.evaluator, σ'.table) ∧
      Runs store none (.place p) ⟨t, e⟩ r σ' ∧
      (askCell store p).exec ⟨⟨t, e⟩, log⟩ =
        (r.mapError fun e => .halt (.error e), ⟨σ', more ++ log⟩) ∧
      Fresh store ⟨t, e⟩ σ' [] more := by
  obtain ⟨r, σ', hcall, hrun⟩ := evaluateCell_runs hsafe.rooted e p
  obtain ⟨more, hexec, hfresh⟩ := hrun.checked hsafe t.cells.size log t.waiting_le
  refine ⟨r, σ', more, hcall, hrun, ?_, hfresh⟩
  rw [askCell, CheckM.exec_get_bind]
  exact hexec

/-- Asking for the table with checks is a run, and it is what the program does. -/
theorem exec_askTable (hsafe : t.Safe store) (e : Evaluator) (log : List NodeId) :
    ∃ r σ' more, e.evaluateTable store t =
        ((r.map fun _ => σ'.table.toGrid).mapError .error, σ'.evaluator, σ'.table) ∧
      RunsAll store t.positions ⟨t, e⟩ r σ' ∧
      (askTable store).exec ⟨⟨t, e⟩, log⟩ =
        ((r.map fun _ => σ'.table.toGrid).mapError fun e => .halt (.error e), ⟨σ', more ++ log⟩) ∧
      Fresh store ⟨t, e⟩ σ' [] more := by
  obtain ⟨r, σ', hcall, hrun⟩ := evaluateTable_runs hsafe.rooted e
  obtain ⟨more, hexec, hfresh⟩ := hrun.checked hsafe t.waiting_le log
  refine ⟨r, σ', more, hcall, hrun, ?_, hfresh⟩
  rw [askTable, CheckM.exec_get_bind]
  cases r with
  | error err => exact CheckM.exec_bind_of_error hexec _
  | ok u =>
      have hsafe' : σ'.table.Safe store := hrun.later.safe hsafe
      refine (CheckM.exec_bind_of_ok hexec _).trans ?_
      rw [CheckM.exec_get_bind, toGrid_eq hsafe']
      rfl

/-- A result with checks is the result of the program, and no check has failed. -/
theorem run_eq {α : Type} {e : Evaluator} {m : CheckM α} {r : Except EvalError α} {w : Watched}
    (h : m.exec ⟨⟨t, e⟩, []⟩ = (r.mapError fun e => .halt (.error e), w)) :
    run e t m = .ok (r.mapError .error, w.state.evaluator, w.state.table) := by
  unfold run
  rw [show m.run.run ⟨⟨t, e⟩, []⟩ = _ from h]
  cases r <;> rfl

theorem evaluateCell_eq (hsafe : t.Safe store) (e : Evaluator) (p : Position) :
    evaluateCell store e t p = .ok (e.evaluateCell store t p) := by
  obtain ⟨r, σ', more, hcall, _, hexec, _⟩ := exec_askCell hsafe e p []
  rw [evaluateCell, run_eq hexec, hcall]

theorem evaluateTable_eq (hsafe : t.Safe store) (e : Evaluator) :
    evaluateTable store e t = .ok (e.evaluateTable store t) := by
  obtain ⟨r, σ', more, hcall, _, hexec, _⟩ := exec_askTable hsafe e []
  rw [evaluateTable, run_eq hexec, hcall]

end Checked

end PipeSheet
