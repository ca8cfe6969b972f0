import PipeSheet.Proofs.Evaluation.Bookkeeping
import PipeSheet.Proofs.Table.Weight
/-!
# PipeSheet.Proofs.Evaluation.Accounting

**What a successful evaluation of a source counts is what its table consists of.**

Which reference is the first one to a formula, and so begins it, depends on the order in which the
formulas are met; every other reference to it is a hit. The totals do not depend on it, because
there are two balances that a run changes by what it evaluates and by nothing else:

* the visited nodes, less the nodes of the formulas that were begun;
* the hits and the formulas that were begun, less the references to formulas in these.

A formula that is begun lowers the first one by its nodes, and evaluating it visits as many. It
lowers the second one by the references in it, and each of them is paid by a hit or by a formula
that begins. At the end of a successful evaluation all formulas were begun, and what they weigh
together is what the store weighs (`Table.weight_of_read`).

* `Weights.nodes`, `Weights.reads`: what is counted;
* `EvalState.nodeBalance`, `EvalState.readBalance`: the two balances;
* `Runs.balances`, `RunsAll.balances`: what a run does to them;
* `evaluateSource_stats`: the law.
-/

namespace PipeSheet

open Formula (Node NodeId Operand Store Tree)
open Sheet (Subject)

variable {store : Store} {t t' : Table} {p : Position} {f : FormulaCell} {tree : Tree} {w : Weights}

/-! ### Formulas of a table -/

/-- Whether there is a formula at a position. -/
def Table.hasFormula (t : Table) (p : Position) : Bool :=
  (t.get? p).any Cell.isFormula

/-- Whether the node is a reference to a formula of the table. -/
def Formula.Node.readsFormula (t : Table) : Node → Bool
  | .ref q => t.hasFormula q
  | _ => false

/-- Every node weighs one. -/
def Weights.nodes : Weights where
  sum := 1
  operand _ := 1

/-- The references to formulas of a table weigh one. -/
def Weights.reads (t : Table) : Weights where
  sum := 0
  operand
    | .number _ => 0
    | .ref q => if t.hasFormula q then 1 else 0

namespace Weights

variable (t : Table) (operand : Operand) (v : Float) (q : Position)

@[simp] theorem sum_nodes : nodes.sum = 1 := rfl

@[simp] theorem operand_nodes : nodes.operand operand = 1 := rfl

@[simp] theorem sum_reads : (reads t).sum = 0 := rfl

@[simp] theorem operand_reads_number : (reads t).operand (.number v) = 0 := rfl

@[simp] theorem operand_reads_ref :
    (reads t).operand (.ref q) = if t.hasFormula q then 1 else 0 := rfl

end Weights

theorem Formula.Store.weight_nodes (s : Store) : s.weight .nodes = s.size := by
  have hone : Node.weight .nodes = fun _ => 1 := by
    funext node
    cases node <;> rfl
  simp [weight, hone, size]

theorem Formula.Store.weight_reads (t : Table) (s : Store) :
    s.weight (.reads t) = s.nodes.countP (Node.readsFormula t) := by
  have key : ∀ nodes : List Node,
      (nodes.map (Node.weight (.reads t))).sum = nodes.countP (Node.readsFormula t) := by
    intro nodes
    induction nodes with
    | nil => rfl
    | cons node rest ih =>
        have hnode : node.weight (.reads t) = if node.readsFormula t then 1 else 0 := by
          cases node <;> rfl
        rw [List.map_cons, List.sum_cons, ih, hnode, List.countP_cons, Nat.add_comm]
  rw [weight, key, Array.countP_toList]

namespace Table

theorem hasFormula_eq_getD : t.hasFormula p = ((t.get? p).getD .empty).isFormula := by
  rw [hasFormula]
  cases t.get? p <;> rfl

theorem Later.hasFormula_eq (h : t.Later t') (p : Position) : t'.hasFormula p = t.hasFormula p := by
  rw [hasFormula, hasFormula]
  rcases h.cell_eq p with heq | ⟨f, f', hf, _, hf', _⟩
  · rw [heq]
  · rw [hf, hf']
    rfl

/-- Whether there was a formula can be seen from what is there now. -/
theorem Later.hasFormula_of_get? (h : t.Later t') {cell : Cell} (hp : t'.get? p = some cell) :
    t.hasFormula p = cell.isFormula := by
  rw [← h.hasFormula_eq, hasFormula, hp]
  rfl

theorem Later.weight_eq (h : t.Later t') : t'.weight store w = t.weight store w := by
  have hmap := h.map_cells_eq (g := Cell.weight store w) fun f f' hroot => by
    rw [Cell.weight, Cell.weight, hroot]
  rw [weight, weight, hmap]

/-- The formulas are as many as the positions with a formula. -/
theorem countP_positions (t : Table) : t.positions.countP t.hasFormula = t.formulaCount := by
  calc t.positions.countP t.hasFormula
      = (t.positions.map t.get?).countP (·.any Cell.isFormula) := by rw [List.countP_map]; rfl
    _ = t.cells.toList.countP Cell.isFormula := by
        rw [map_get?_positions, List.countP_map]
        rfl
    _ = t.formulaCount := Array.countP_toList

end Table

/-! ### Formulas that were begun -/

/-- What the formula in a cell weighs, once it was begun. -/
def Cell.begunWeight (store : Store) (w : Weights) (cell : Cell) : Nat :=
  if cell.isBegun then cell.weight store w else 0

theorem Cell.begunWeight_formula (h : store.tree? f.root = some tree) :
    (Cell.formula f).begunWeight store w =
      if f.status = .unevaluated then 0 else tree.weight w := by
  simp [begunWeight, isBegun_formula, weight_of_tree h]

namespace Table

/-- What all formulas weigh that were begun. -/
def begunWeight (store : Store) (w : Weights) (t : Table) : Nat :=
  (t.cells.toList.map (Cell.begunWeight store w)).sum

/-- A formula weighs before and after a change, by its status before and after it. -/
theorem begunWeight_setFormula (h : t.get? p = some (.formula f))
    (htree : store.tree? f.root = some tree) (new : Status) (v : Float) :
    (t.setFormula p new v).begunWeight store w +
        (if f.status = .unevaluated then 0 else tree.weight w) =
      t.begunWeight store w + (if new = .unevaluated then 0 else tree.weight w) := by
  obtain ⟨front, back, hcells, hcells'⟩ := exists_cells_setFormula h new v
  have hnew : (Cell.formula { f with status := new, value := v }).begunWeight store w =
      if new = .unevaluated then 0 else tree.weight w := Cell.begunWeight_formula htree
  rw [begunWeight, begunWeight, hcells, hcells']
  simp only [List.map_append, List.map_cons, List.sum_append, List.sum_cons,
    Cell.begunWeight_formula htree, hnew]
  omega

/-- Before anything was begun, nothing that was begun weighs anything. -/
theorem begunWeight_of_unevaluated
    (h : ∀ p f, t.get? p = some (.formula f) → f.status = .unevaluated) :
    t.begunWeight store w = 0 := by
  refine List.sum_eq_zero fun n hn => ?_
  obtain ⟨cell, hcell, rfl⟩ := List.mem_map.1 hn
  obtain ⟨p, hp⟩ := exists_get?_of_mem hcell
  cases cell with
  | formula f => simp [Cell.begunWeight, Cell.isBegun, h p f hp]
  | _ => rfl

theorem Evaluated.isBegun_eq (h : t.Evaluated) {cell : Cell} (hcell : cell ∈ t.cells.toList) :
    cell.isBegun = cell.isFormula := by
  obtain ⟨p, hp⟩ := exists_get?_of_mem hcell
  cases cell with
  | formula f => simp [Cell.isBegun, Cell.isFormula, h hp]
  | _ => rfl

theorem Evaluated.begunCount_eq (h : t.Evaluated) : t.begunCount = t.formulaCount := by
  rw [begunCount, formulaCount, ← Array.countP_toList, ← Array.countP_toList]
  exact List.countP_congr fun cell hcell => by rw [h.isBegun_eq hcell]

theorem Evaluated.begunWeight_eq (h : t.Evaluated) : t.begunWeight store w = t.weight store w := by
  rw [begunWeight, weight]
  refine congrArg List.sum (List.map_congr_left fun cell hcell => ?_)
  rw [Cell.begunWeight, h.isBegun_eq hcell]
  cases cell <;> rfl

end Table

/-! ### The balances -/

namespace EvalState

/-- The visited nodes, less the nodes of the formulas that were begun. -/
def nodeBalance (store : Store) (σ : EvalState) : Int :=
  σ.evaluator.stats.nodesVisited - σ.table.begunWeight store .nodes

/-- The hits and the formulas that were begun, less the references in these. -/
def readBalance (store : Store) (t : Table) (σ : EvalState) : Int :=
  σ.evaluator.stats.cacheHits + σ.table.begunCount - σ.table.begunWeight store (.reads t)

variable {σ : EvalState}

@[simp] theorem nodeBalance_visit : σ.visit.nodeBalance store = σ.nodeBalance store + 1 := by
  simp only [nodeBalance, visit]
  omega

@[simp] theorem readBalance_visit : σ.visit.readBalance store t = σ.readBalance store t := rfl

@[simp] theorem nodeBalance_hit : σ.hit.nodeBalance store = σ.nodeBalance store := rfl

@[simp] theorem readBalance_hit : σ.hit.readBalance store t = σ.readBalance store t + 1 := by
  simp only [readBalance, hit]
  omega

/-- A formula that begins owes the visits of its nodes. -/
theorem nodeBalance_enter (hp : σ.table.get? p = some (.formula f)) (hs : f.status = .unevaluated)
    (htree : store.tree? f.root = some tree) :
    (σ.enter p).nodeBalance store = σ.nodeBalance store - tree.weight .nodes := by
  have hweight := Table.begunWeight_setFormula (w := .nodes) hp htree .inProgress 0
  rw [if_pos hs, if_neg (by simp)] at hweight
  simp only [nodeBalance, enter]
  omega

/-- A formula that begins owes the references in it, and pays for the one that led to it. -/
theorem readBalance_enter (hp : σ.table.get? p = some (.formula f)) (hs : f.status = .unevaluated)
    (htree : store.tree? f.root = some tree) :
    (σ.enter p).readBalance store t = σ.readBalance store t + 1 - tree.weight (.reads t) := by
  have hweight := Table.begunWeight_setFormula (w := .reads t) hp htree .inProgress 0
  have hcount := Table.begunCount_setFormula hp .inProgress 0
  rw [if_pos hs, if_neg (by simp)] at hweight hcount
  simp only [readBalance, enter]
  omega

/-- A formula that ends was begun before. -/
theorem balances_leave (hp : σ.table.get? p = some (.formula f)) (hs : f.status = .inProgress)
    (htree : store.tree? f.root = some tree) (v : Float) :
    (σ.leave p v).nodeBalance store = σ.nodeBalance store ∧
      (σ.leave p v).readBalance store t = σ.readBalance store t := by
  have hnodes := Table.begunWeight_setFormula (w := .nodes) hp htree .evaluated v
  have hreads := Table.begunWeight_setFormula (w := .reads t) hp htree .evaluated v
  have hcount := Table.begunCount_setFormula hp .evaluated v
  rw [if_neg (by simp [hs]), if_neg (by simp)] at hnodes hreads hcount
  simp only [nodeBalance, readBalance, leave]
  omega

end EvalState

/-! ### Runs -/

/-- The nodes that are visited when a subject is evaluated, apart from those of formulas that
begin. -/
def Sheet.Subject.nodes : Subject → Nat
  | .place _ => 0
  | .tree tree => tree.weight .nodes

/-- The formulas that are asked for when a subject is evaluated, apart from those in formulas that
begin. -/
def Sheet.Subject.reads (t : Table) : Subject → Nat
  | .place p => if t.hasFormula p then 1 else 0
  | .tree tree => tree.weight (.reads t)

section Runs

variable {σ σ' : EvalState}

/-- A run that has a value changes the balances by what its subject consists of. -/
theorem Runs.balances {o : Option Position} {x : Subject} {r : Except EvalError Float}
    (h : Runs store o x σ r σ') (hlater : t.Later σ.table) {v : Float} (hr : r = .ok v) :
    σ'.nodeBalance store = σ.nodeBalance store + x.nodes ∧
      σ'.readBalance store t = σ.readBalance store t + x.reads t := by
  induction h generalizing v with
  | outside _ => cases hr
  | empty hp => simp [Subject.nodes, Subject.reads, hlater.hasFormula_of_get? hp, Cell.isFormula]
  | number hp => simp [Subject.nodes, Subject.reads, hlater.hasFormula_of_get? hp, Cell.isFormula]
  | text _ => cases hr
  | cached hp _ => simp [Subject.nodes, Subject.reads, hlater.hasFormula_of_get? hp, Cell.isFormula]
  | cycle _ _ => cases hr
  | @done o p f tree a σ σ' hp hs htree hrun ih =>
      have hbegin : σ.table.Later (σ.enter p).table := .of_setFormula hp hs .inProgress 0
      obtain ⟨hnodes, hreads⟩ := ih (hlater.trans hbegin) rfl
      have hp' := hrun.later.get?_of_begun (Table.get?_setFormula_self hp .inProgress 0) (by simp)
      obtain ⟨hnodes', hreads'⟩ := EvalState.balances_leave (t := t) hp' rfl htree a
      rw [hnodes', hreads', hnodes, hreads, EvalState.nodeBalance_enter hp hs htree,
        EvalState.readBalance_enter hp hs htree]
      simp [Subject.nodes, Subject.reads, hlater.hasFormula_of_get? hp, Cell.isFormula]
  | broken _ _ _ _ _ => cases hr
  | literal => simp [Subject.nodes, Subject.reads, Tree.weight]
  | reference _ ih =>
      obtain ⟨hnodes, hreads⟩ := ih hlater hr
      rw [hnodes, hreads]
      simp [Subject.nodes, Subject.reads, Tree.weight]
  | plus hrun₁ _ ih₁ ih₂ =>
      obtain ⟨hnodes₁, hreads₁⟩ := ih₁ hlater rfl
      obtain ⟨hnodes₂, hreads₂⟩ := ih₂ (hlater.trans hrun₁.later) rfl
      rw [hnodes₂, hreads₂, hnodes₁, hreads₁]
      simp only [EvalState.nodeBalance_visit, EvalState.readBalance_visit, Subject.nodes,
        Subject.reads, Tree.weight, Weights.sum_nodes, Weights.sum_reads]
      omega
  | plusLeft _ _ => cases hr
  | plusRight _ _ _ _ => cases hr

/-- A run over places that succeeds asks for each formula among them. -/
theorem RunsAll.balances {ps : List Position} {r : Except EvalError Unit}
    (h : RunsAll store ps σ r σ') (hlater : t.Later σ.table) (hr : r = .ok ()) :
    σ'.nodeBalance store = σ.nodeBalance store ∧
      σ'.readBalance store t = σ.readBalance store t + ps.countP t.hasFormula := by
  induction h with
  | nil => simp
  | @skip p rest r σ σ' hp _ ih =>
      have hno : t.hasFormula p = false := by
        rw [← hlater.hasFormula_eq, Table.hasFormula_eq_getD, Table.isFormula_getD_get? hp]
      obtain ⟨hnodes, hreads⟩ := ih hlater hr
      refine ⟨hnodes, ?_⟩
      rw [hreads, List.countP_cons_of_neg (by simp [hno])]
  | @next p rest f v r σ σ₁ σ₂ hp hrun _ ih =>
      have hyes : t.hasFormula p = true := hlater.hasFormula_of_get? hp
      obtain ⟨hnodes₁, hreads₁⟩ := hrun.balances hlater rfl
      obtain ⟨hnodes, hreads⟩ := ih (hlater.trans hrun.later) hr
      rw [hnodes, hreads, hnodes₁, hreads₁, List.countP_cons_of_pos hyes]
      simp only [Subject.nodes, Subject.reads, hyes, if_true]
      omega
  | stop _ _ => cases hr

end Runs

/-! ### Sources -/

/-- When a source is evaluated, the formulas that were begun are all formulas of its table, the
visited nodes are all nodes that reading it has put into the store, and there was a hit for every
reference to a formula among them. Every node must have an id; adding a node to a full store is no
step of the program. -/
theorem evaluateSource_stats {source : List Char} {g : Grid} {stats : Stats}
    (hids : (Table.read source .empty).2.size < 2 ^ 32)
    (h : evaluateSource source = .ok (g, stats)) :
    ∃ t store, Table.read source .empty = (.ok t, store) ∧
      stats.formulasEvaluated = t.formulaCount ∧
      stats.nodesVisited = store.size ∧
      stats.cacheHits = store.nodes.countP (Node.readsFormula t) := by
  obtain ⟨t, store, e, t', hread, hcall, rfl⟩ := evaluateSource_eq_ok_iff.1 h
  rw [hread] at hids
  have hsize : store.size ≤ 2 ^ 32 := Nat.le_of_lt hids
  have hreads := Table.readsAs_of_size_le hread hsize
  have hfresh : ∀ p f, t.get? p = some (.formula f) → f.status = .unevaluated :=
    fun _ _ hp => hreads.unevaluated hp
  obtain ⟨r, σ, hruns, hrun⟩ := evaluateTable_runs hreads.rooted {}
  rw [hcall] at hruns
  cases r with
  | error err => cases hruns
  | ok u =>
      cases hruns
      have hevaluated : σ.table.Evaluated := hrun.evaluated rfl hreads.atRest.sound
      have hlater : t.Later σ.table := hrun.later
      have hinOrder : (Watched.start t).InOrder store t := Watched.inOrder_start hfresh
      have hstart : EvalState.Kept ⟨t, {}⟩ := hinOrder.kept
      have hformulas : σ.evaluator.stats.formulasEvaluated = t.formulaCount := by
        rw [(hrun.kept hstart).formulas_eq, hevaluated.begunCount_eq, hlater.formulaCount_eq]
      -- At the beginning both balances are zero, and at the end all formulas were begun.
      obtain ⟨hnodes, hreads⟩ := hrun.balances (.refl t) rfl
      have hcount : t.begunCount = 0 := hstart.formulas_eq.symm
      simp only [EvalState.nodeBalance, EvalState.readBalance, hevaluated.begunWeight_eq,
        hevaluated.begunCount_eq, hlater.weight_eq, hlater.formulaCount_eq,
        Table.begunWeight_of_unevaluated hfresh, hcount, Table.countP_positions] at hnodes hreads
      have hstore : ∀ w : Weights, store.weight w = t.weight store w := by
        intro w
        rw [Table.weight_of_read hread hsize, Store.weight_empty, Nat.zero_add]
      refine ⟨t, store, hread, hformulas, ?_, ?_⟩
      · rw [← Store.weight_nodes, hstore]
        omega
      · rw [← Store.weight_reads, hstore]
        omega

/-- Two references lead to one formula, and it comes after them. -/
theorem evaluateSource_stats_of_shared :
    ∃ g stats, evaluateSource "=B0+B0+A1|=1+2\n4".toList = .ok (g, stats) ∧
      stats.formulasEvaluated = 2 ∧ stats.nodesVisited = 8 ∧ stats.cacheHits = 2 := by
  have hok : (evaluateSource "=B0+B0+A1|=1+2\n4".toList).isOk = true := by decide +kernel
  have hcheck : Table.readsTo "=B0+B0+A1|=1+2\n4".toList (fun t store => decide (
      store.size = 8 ∧ t.formulaCount = 2 ∧
        store.nodes.countP (Node.readsFormula t) = 2)) = true := by
    decide +kernel
  obtain ⟨t, store, hread, hcheck⟩ := Table.exists_of_readsTo hcheck
  obtain ⟨hsize, hformulas, hrefs⟩ := of_decide_eq_true hcheck
  cases hresult : evaluateSource "=B0+B0+A1|=1+2\n4".toList with
  | error e =>
      rw [hresult] at hok
      cases hok
  | ok result =>
      obtain ⟨g, stats⟩ := result
      have hids : (Table.read "=B0+B0+A1|=1+2\n4".toList .empty).2.size < 2 ^ 32 := by
        rw [hread]
        exact hsize ▸ by decide
      obtain ⟨t', store', hread', hstats⟩ := evaluateSource_stats hids hresult
      cases hread.symm.trans hread'
      exact ⟨g, stats, rfl, hformulas ▸ hstats.1, hsize ▸ hstats.2.1, hrefs ▸ hstats.2.2⟩

end PipeSheet
