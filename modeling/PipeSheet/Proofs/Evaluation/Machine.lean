import PipeSheet.Proofs.Evaluation.History
/-!
# PipeSheet.Proofs.Evaluation.Machine

**Evaluation ends, and no more formulas are nested than were waiting to begin.**

The evaluator is given a bound on its depth, so that it ends says nothing about a program without
one. The machine here has none. It does one thing at a time, follows ids from node to node, and
keeps on a stack of frames whatever waits for a value; a formula in the midst of its expression has
a frame.

A formula that gets its frame is one fewer that waits to begin, and no step makes one wait again. So
the frames of formulas and the waiting formulas together never become more (`Machine.load_step_le`),
wherever the references lead. And every run of the evaluator is a walk of the machine to its end
(`Runs.walked`), so both have the same results.

* `Machine`, `Machine.step`: the machine;
* `Machine.nested`: the number of formulas in the midst of their expressions;
* `evaluation_terminates`: the law.
-/

namespace PipeSheet

open Formula (Node NodeId Store Tree)
open Relation (ReflTransGen)
open Sheet (Subject)

/-! ### The machine -/

/-- What is done next. -/
inductive Task where
  /-- A position is looked up, for the formula at `origin` if there is one. -/
  | place (origin : Option Position) (p : Position)
  /-- A node of the formula at `origin` is visited. -/
  | node (origin : Position) (id : NodeId)
  /-- The formulas among some positions are evaluated, one after another. -/
  | places (ps : List Position)
  /-- A result is handed to what waits for it. -/
  | give (result : Except EvalError Float)

/-- What waits for a value. -/
inductive Frame where
  /-- A sum, whose right side comes next. -/
  | right (origin : Position) (rhs : NodeId)
  /-- A sum whose left side has a value. -/
  | sum (lhs : Float)
  /-- A formula, for the value of its expression. -/
  | formula (p : Position)
  /-- The formulas among some positions, which come next. -/
  | rest (ps : List Position)

/-- Whether the frame is that of a formula. -/
def Frame.isFormula : Frame → Bool
  | .formula _ => true
  | _ => false

/-- What is done next, what waits for it, innermost first, and the state. -/
structure Machine where
  task : Task
  frames : List Frame
  state : EvalState

namespace Machine

/-- A position is looked up. A formula that waits is begun, and gets a frame. -/
def lookUp (origin : Option Position) (p : Position) (frames : List Frame) (σ : EvalState) :
    Machine :=
  match σ.table.get? p with
  | none => ⟨.give (.error (.outOfBounds p origin σ.table.rows σ.table.cols)), frames, σ⟩
  | some .empty => ⟨.give (.ok 0), frames, σ⟩
  | some (.number v) => ⟨.give (.ok v), frames, σ⟩
  | some (.text _ content) => ⟨.give (.error (.typeMismatch p origin content)), frames, σ⟩
  | some (.formula f) =>
    match f.status with
    | .evaluated => ⟨.give (.ok f.value), frames, σ.hit⟩
    | .inProgress =>
      ⟨.give (.error (.circularDependency p (σ.evaluator.cycleTo p))), frames, σ⟩
    | .unevaluated => ⟨.node p f.root, .formula p :: frames, σ.enter p⟩

/-- A node is visited. -/
def visit (origin : Position) (frames : List Frame) (σ : EvalState) : Node → Machine
  | .number v => ⟨.give (.ok v), frames, σ.visit⟩
  | .ref q => ⟨.place (some origin) q, frames, σ.visit⟩
  | .plus lhs rhs => ⟨.node origin lhs, .right origin rhs :: frames, σ.visit⟩

/-- A result is handed to a frame. An error goes on to the next one. -/
def hand (frames : List Frame) (σ : EvalState) : Except EvalError Float → Frame → Machine
  | .error e, _ => ⟨.give (.error e), frames, σ⟩
  | .ok v, .right origin rhs => ⟨.node origin rhs, .sum v :: frames, σ⟩
  | .ok v, .sum lhs => ⟨.give (.ok (lhs + v)), frames, σ⟩
  | .ok v, .formula p => ⟨.give (.ok v), frames, σ.leave p v⟩
  | .ok _, .rest ps => ⟨.places ps, frames, σ⟩

/-- One step. There is none when a result is handed to nobody, when no positions are left, and when
an id has no node. -/
def step (store : Store) : Machine → Option Machine
  | ⟨.place origin p, frames, σ⟩ => some (lookUp origin p frames σ)
  | ⟨.node origin id, frames, σ⟩ => (store.get? id).map (visit origin frames σ)
  | ⟨.places [], _, _⟩ => none
  | ⟨.places (p :: ps), frames, σ⟩ =>
    if ((σ.table.get? p).getD .empty).isFormula then some ⟨.place none p, .rest ps :: frames, σ⟩
    else some ⟨.places ps, frames, σ⟩
  | ⟨.give _, [], _⟩ => none
  | ⟨.give result, frame :: frames, σ⟩ => some (hand frames σ result frame)

/-- The machine gets from one state to another. -/
def Walks (store : Store) : Machine → Machine → Prop :=
  ReflTransGen fun m m' => m.step store = some m'

/-- The machine comes to its end in a state. -/
structure EndsIn (store : Store) (m last : Machine) : Prop where
  walks : Walks store m last
  ended : last.step store = none

/-- The number of formulas that are in the midst of their expressions. -/
def nested (m : Machine) : Nat :=
  m.frames.countP Frame.isFormula

/-- The formulas in the midst of their expressions, and those that wait to begin. -/
def load (m : Machine) : Nat :=
  m.nested + m.state.table.waiting

end Machine

/-! ### The bound -/

/-- A formula that gets a state other than the first one does not make another formula wait. -/
theorem Table.waiting_setFormula_le (t : Table) (p : Position) {status : Status}
    (hs : status ≠ .unevaluated) (v : Float) : (t.setFormula p status v).waiting ≤ t.waiting := by
  refine List.countP_mono_left fun q _ hq => ?_
  obtain ⟨g, hg, hwaits⟩ := waitsAt_iff.1 hq
  have hin : (t.setFormula p status v).Contains q := contains_of_get? hg
  have hget : (t.setFormula p status v).get? q =
      if t.index p = t.index q then (t.cells[t.index q]?).map (Cell.withState status v)
      else t.cells[t.index q]? := by
    rw [get?_of_contains hin]
    exact Array.getElem?_modify
  rw [hg] at hget
  split at hget
  · obtain ⟨cell, _, hcell⟩ := Option.map_eq_some_iff.1 hget.symm
    cases cell with
    | formula f =>
        cases hcell
        exact absurd hwaits hs
    | _ => cases hcell
  · refine waitsAt_iff.2 ⟨g, ?_, hwaits⟩
    rw [get?_of_contains (show t.Contains q from hin)]
    exact hget.symm

namespace Machine

variable {store : Store} {m m' : Machine} {frames : List Frame} {σ : EvalState}

theorem load_lookUp_le (origin : Option Position) (p : Position) :
    (lookUp origin p frames σ).load ≤ frames.countP Frame.isFormula + σ.table.waiting := by
  unfold lookUp
  split
  · exact Nat.le_refl _
  · exact Nat.le_refl _
  · exact Nat.le_refl _
  · exact Nat.le_refl _
  · next f hp =>
    split
    · exact Nat.le_refl _
    · exact Nat.le_refl _
    · next hs =>
      -- The formula gets a frame, and is not counted among those that wait any more.
      have hlt : (σ.enter p).table.waiting < σ.table.waiting := Table.waiting_setFormula_lt hp hs
      simp only [load, nested, List.countP_cons, Frame.isFormula, if_true]
      omega

theorem load_visit (origin : Position) (node : Node) :
    (visit origin frames σ node).load = frames.countP Frame.isFormula + σ.table.waiting := by
  cases node <;> rfl

theorem load_hand_le (result : Except EvalError Float) (frame : Frame) :
    (hand frames σ result frame).load ≤
      (frame :: frames).countP Frame.isFormula + σ.table.waiting := by
  have hframes : frames.countP Frame.isFormula ≤ (frame :: frames).countP Frame.isFormula :=
    (List.sublist_cons_self frame frames).countP_le
  have hkeep : frames.countP Frame.isFormula + σ.table.waiting ≤
      (frame :: frames).countP Frame.isFormula + σ.table.waiting := Nat.add_le_add_right hframes _
  cases result with
  | error e => exact hkeep
  | ok v =>
      cases frame with
      | formula p =>
          have hle : (σ.leave p v).table.waiting ≤ σ.table.waiting :=
            Table.waiting_setFormula_le _ p (by simp) v
          exact Nat.add_le_add hframes hle
      | _ => exact hkeep

/-- No step makes the load heavier. -/
theorem load_step_le (h : m.step store = some m') : m'.load ≤ m.load := by
  obtain ⟨task, frames, σ⟩ := m
  cases task with
  | place origin p =>
      cases h
      exact load_lookUp_le origin p
  | node origin id =>
      obtain ⟨node, _, rfl⟩ := Option.map_eq_some_iff.1 h
      exact Nat.le_of_eq (load_visit origin node)
  | places ps =>
      cases ps with
      | nil => cases h
      | cons p ps =>
          rw [step] at h
          split at h
          · cases h
            exact Nat.le_refl _
          · cases h
            exact Nat.le_refl _
  | give result =>
      cases frames with
      | nil => cases h
      | cons frame frames =>
          cases h
          exact load_hand_le result frame

theorem Walks.load_le (h : Walks store m m') : m'.load ≤ m.load := by
  induction h with
  | refl => exact Nat.le_refl _
  | tail _ hstep ih => exact Nat.le_trans (load_step_le hstep) ih

/-- While nothing was nested at first, no more formulas are nested than were waiting. -/
theorem Walks.nested_le (h : Walks store m m') (hm : m.nested = 0) :
    m'.nested ≤ m.state.table.waiting := by
  have hload := h.load_le
  rw [load, load, hm] at hload
  omega

end Machine

/-! ### Runs are walks -/

open Machine (Walks EndsIn)

variable {store : Store} {σ σ' : EvalState}

/-- The machine walks from a subject to its result, whatever waits for it. -/
def Walked (store : Store) (o : Option Position) (σ : EvalState) (r : Except EvalError Float)
    (σ' : EvalState) : Subject → Prop
  | .place p => ∀ frames, Walks store ⟨.place o p, frames, σ⟩ ⟨.give r, frames, σ'⟩
  | .tree tree => ∀ origin id frames, o = some origin → store.tree? id = some tree →
      Walks store ⟨.node origin id, frames, σ⟩ ⟨.give r, frames, σ'⟩

/-- Every run of the evaluator is a walk of the machine. -/
theorem Runs.walked {o : Option Position} {x : Subject} {r : Except EvalError Float}
    (h : Runs store o x σ r σ') : Walked store o σ r σ' x := by
  have hplace : ∀ {o : Option Position} {p : Position} {σ : EvalState} {frames : List Frame}
      {m : Machine}, Machine.lookUp o p frames σ = m →
      (⟨.place o p, frames, σ⟩ : Machine).step store = some m := fun h => congrArg some h
  have hbegin : ∀ {o : Option Position} {p : Position} {f : FormulaCell} {σ : EvalState}
      {frames : List Frame}, σ.table.get? p = some (.formula f) → f.status = .unevaluated →
      (⟨.place o p, frames, σ⟩ : Machine).step store =
        some ⟨.node p f.root, .formula p :: frames, σ.enter p⟩ :=
    fun hp hs => hplace (by simp only [Machine.lookUp, hp, hs])
  have hnode : ∀ {origin : Position} {id : NodeId} {node : Node} {σ : EvalState}
      {frames : List Frame}, store.get? id = some node →
      (⟨.node origin id, frames, σ⟩ : Machine).step store =
        some (Machine.visit origin frames σ node) := fun h => congrArg (Option.map _) h
  induction h with
  | outside hp => exact fun frames => .single (hplace (by rw [Machine.lookUp, hp]))
  | empty hp => exact fun frames => .single (hplace (by rw [Machine.lookUp, hp]))
  | number hp => exact fun frames => .single (hplace (by rw [Machine.lookUp, hp]))
  | text hp => exact fun frames => .single (hplace (by rw [Machine.lookUp, hp]))
  | cached hp hs => exact fun frames => .single (hplace (by simp only [Machine.lookUp, hp, hs]))
  | cycle hp hs => exact fun frames => .single (hplace (by simp only [Machine.lookUp, hp, hs]))
  | done hp hs htree _ ih =>
      intro frames
      refine .head (hbegin hp hs) ?_
      exact .tail (ih _ _ (.formula _ :: frames) rfl htree) rfl
  | broken hp hs htree _ ih =>
      intro frames
      refine .head (hbegin hp hs) ?_
      exact .tail (ih _ _ (.formula _ :: frames) rfl htree) rfl
  | literal =>
      intro origin id frames ho htree
      exact .single (hnode (Store.get?_of_tree? htree))
  | reference _ ih =>
      intro origin id frames ho htree
      subst ho
      exact .head (hnode (Store.get?_of_tree? htree)) (ih frames)
  | plus _ _ ih₁ ih₂ =>
      intro origin id frames ho htree
      obtain ⟨lhs, rhs, hget, hl, hr⟩ := Store.get?_of_tree? htree
      refine .head (hnode hget) (.trans (ih₁ origin lhs (.right origin rhs :: frames) ho hl) ?_)
      exact .head rfl (.tail (ih₂ origin rhs (.sum _ :: frames) ho hr) rfl)
  | plusLeft _ ih =>
      intro origin id frames ho htree
      obtain ⟨lhs, rhs, hget, hl, hr⟩ := Store.get?_of_tree? htree
      exact .head (hnode hget) (.tail (ih origin lhs (.right origin rhs :: frames) ho hl) rfl)
  | plusRight _ _ ih₁ ih₂ =>
      intro origin id frames ho htree
      obtain ⟨lhs, rhs, hget, hl, hr⟩ := Store.get?_of_tree? htree
      refine .head (hnode hget) (.trans (ih₁ origin lhs (.right origin rhs :: frames) ho hl) ?_)
      exact .head rfl (.tail (ih₂ origin rhs (.sum _ :: frames) ho hr) rfl)

/-- The last thing that is done when positions are evaluated. -/
def lastTask : Except EvalError Unit → Task
  | .ok _ => .places []
  | .error e => .give (.error e)

theorem RunsAll.walks {ps : List Position} {r : Except EvalError Unit}
    (h : RunsAll store ps σ r σ') : Walks store ⟨.places ps, [], σ⟩ ⟨lastTask r, [], σ'⟩ := by
  have hnext : ∀ {p : Position} {f : FormulaCell} {rest : List Position} {σ : EvalState},
      σ.table.get? p = some (.formula f) →
      (⟨.places (p :: rest), [], σ⟩ : Machine).step store =
        some ⟨.place none p, [.rest rest], σ⟩ := by
    intro p f rest σ hp
    rw [Machine.step, hp]
    rfl
  induction h with
  | nil => exact .refl
  | @skip p rest r σ σ' hp _ ih =>
      refine .head ?_ ih
      rw [Machine.step, Table.isFormula_getD_get? hp]
      rfl
  | next hp hrun _ ih => exact .head (hnext hp) (.trans (hrun.walked _) (.head rfl ih))
  | stop hp hrun => exact .head (hnext hp) (.tail (hrun.walked _) rfl)

/-! ### Calls -/

section Calls

variable {source : List Char} {before : Store} {t : Table}

/-- Whatever has happened to the table, every call comes to an end, with what the evaluator answers
and the state that it leaves; and at no time are more formulas in the midst of their expressions
than were waiting when the call began. Every node must have an id; adding a node to a full store is
no step of the program. -/
theorem evaluation_terminates (hread : Table.read source before = (.ok t, store))
    (hstore : store.size < 2 ^ 32) (actions : List Workbench.Action) (e : Evaluator) :
    let now := ((Workbench.start t).run store actions).table
    (∀ p, let start : Machine := ⟨.place none p, [], ⟨now, e⟩⟩
      (∃ r σ, EndsIn store start ⟨.give r, [], σ⟩ ∧
        e.evaluateCell store now p = (r.mapError .error, σ.evaluator, σ.table)) ∧
      ∀ m, Walks store start m → m.nested ≤ now.waiting) ∧
    let start : Machine := ⟨.places now.positions, [], ⟨now, e⟩⟩
    (∃ r σ, EndsIn store start ⟨lastTask r, [], σ⟩ ∧
      e.evaluateTable store now =
        ((r.map fun _ => σ.table.toGrid).mapError .error, σ.evaluator, σ.table)) ∧
    ∀ m, Walks store start m → m.nested ≤ now.waiting := by
  have hreads := Table.readsAs_of_size_le hread (Nat.le_of_lt hstore)
  intro now
  have hrooted : now.Rooted store :=
    ((Workbench.atRest_start hreads.atRest).run actions).table.rooted
  refine ⟨fun p => ⟨?_, fun m hm => hm.nested_le rfl⟩, ?_, fun m hm => hm.nested_le rfl⟩
  · obtain ⟨r, σ, hcall, hrun⟩ := evaluateCell_runs hrooted e p
    exact ⟨r, σ, ⟨hrun.walked [], rfl⟩, hcall⟩
  · obtain ⟨r, σ, hcall, hrun⟩ := evaluateTable_runs hrooted e
    refine ⟨r, σ, ⟨hrun.walks, ?_⟩, hcall⟩
    cases r <;> rfl

theorem evaluation_terminates_on_cycle :
    ∃ t store, Table.read "=A1+B0|=A1\n=B0+A1+7".toList .empty = (.ok t, store) ∧
      store.size < 2 ^ 32 ∧ ∀ m, Walks store
        ⟨.places ((Workbench.start t).run store [.evaluateCell 0 ⟨0, 1⟩]).table.positions, [],
          ⟨((Workbench.start t).run store [.evaluateCell 0 ⟨0, 1⟩]).table, {}⟩⟩ m →
        m.nested ≤ 1 := by
  have hcheck : Table.readsTo "=A1+B0|=A1\n=B0+A1+7".toList (fun t store => decide (
      store.size < 2 ^ 32 ∧
      ((Workbench.start t).run store [.evaluateCell 0 ⟨0, 1⟩]).table.waiting = 1)) = true := by
    decide +kernel
  obtain ⟨t, store, hread, hcheck⟩ := Table.exists_of_readsTo hcheck
  obtain ⟨hstore, hwaiting⟩ := of_decide_eq_true hcheck
  refine ⟨t, store, hread, hstore, ?_⟩
  have hbound := (evaluation_terminates hread hstore [.evaluateCell 0 ⟨0, 1⟩] {}).2.2
  rw [hwaiting] at hbound
  exact hbound

end Calls

end PipeSheet
