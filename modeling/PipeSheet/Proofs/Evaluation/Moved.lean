import PipeSheet.Proofs.Evaluation.History
import PipeSheet.Proofs.Evaluation.Relabel
import PipeSheet.Proofs.Table.Moved
/-!
# PipeSheet.Proofs.Evaluation.Moved

**An evaluation never looks at an id, only at what it says.**

A formula that has another name in another store, where the name says the same tree, is evaluated in
the same way: with the same value or error and the same counts. This is a relabelling of its table
that exchanges names only.

What was in a store before a source was read gives other names to the formulas of the source, and
nothing else. So it makes no difference to any session.

* `evaluateCell_mapIds`, `evaluateTable_mapIds`: calls with other names;
* `Session.run_renamed`: a session with other names;
* `read_and_evaluate_behind`: the law.
-/

namespace PipeSheet

open Formula (NodeId Store Tree)
open Sheet (Subject)
open Text (byteLength)

variable {store store' : Store} {name : NodeId → NodeId} {t : Table}

/-! ### Calls with other names -/

/-- A cell is answered in the same way, and the table after it has the other names. -/
theorem evaluateCell_mapIds (hname : Store.Renames name store store') (hroot : t.Rooted store)
    (e : Evaluator) (p : Position) :
    e.evaluateCell store' (t.mapIds name) p =
      let (result, e', t') := e.evaluateCell store t p
      (result, e', t'.mapIds name) := by
  simp only [Table.mapIds_eq]
  exact evaluateCell_relabel hname hroot e p

/-- The table is answered in the same way, and it has the other names after it. -/
theorem evaluateTable_mapIds (hname : Store.Renames name store store') (hroot : t.Rooted store)
    (e : Evaluator) :
    e.evaluateTable store' (t.mapIds name) =
      let (result, e', t') := e.evaluateTable store t
      (result, e', t'.mapIds name) := by
  simp only [Table.mapIds_eq]
  exact evaluateTable_relabel hname hroot e

/-! ### Sessions with other names -/

namespace Session

variable {s : Session}

/-- The session over another store, with other names for the roots of its tables. -/
def renamed (name : NodeId → NodeId) (store' : Store) (s : Session) : Session where
  store := store'
  table := s.table.mapIds name
  evaluator := s.evaluator
  kept := s.kept.mapIds name

/-- Every formula of the tables of a session has its tree in the store. -/
structure Rooted (s : Session) : Prop where
  table : s.table.Rooted s.store
  kept : s.kept.Rooted s.store

theorem Rooted.step (h : s.Rooted) (request : Request) : (s.step request).2.Rooted := by
  cases request with
  | evaluateCell p =>
      obtain ⟨r, σ, hcall, hrun⟩ := evaluateCell_runs h.table s.evaluator p
      have htable : (s.evaluator.evaluateCell s.store s.table p).2.2.Rooted s.store :=
        hcall ▸ hrun.later.rooted h.table
      exact ⟨htable, h.kept⟩
  | evaluateTable =>
      obtain ⟨r, σ, hcall, hrun⟩ := evaluateTable_runs h.table s.evaluator
      have htable : (s.evaluator.evaluateTable s.store s.table).2.2.Rooted s.store :=
        hcall ▸ hrun.later.rooted h.table
      exact ⟨htable, h.kept⟩
  | newEvaluator => exact ⟨h.table, h.kept⟩
  | keep => exact ⟨h.table, h.table⟩
  | putBack => exact ⟨h.kept, h.kept⟩

/-- A request is answered in the same way, and the session after it has the other names. -/
theorem step_renamed (h : s.Rooted) (hname : Store.Renames name s.store store')
    (request : Request) :
    (s.renamed name store').step request =
      ((s.step request).1, (s.step request).2.renamed name store') := by
  cases request with
  | evaluateCell p =>
      have hcall := evaluateCell_mapIds hname h.table s.evaluator p
      unfold step renamed
      dsimp only at hcall ⊢
      rw [hcall]
  | evaluateTable =>
      have hcall := evaluateTable_mapIds hname h.table s.evaluator
      unfold step renamed
      dsimp only at hcall ⊢
      rw [hcall]
  | newEvaluator => rfl
  | keep => rfl
  | putBack => rfl

/-- Requests lead a session with other names to where they lead the session. -/
theorem run_renamed (h : s.Rooted) (hname : Store.Renames name s.store store')
    (requests : List Request) :
    (s.renamed name store').run requests = (s.run requests).renamed name store' ∧
      (s.run requests).Rooted ∧ Store.Renames name (s.run requests).store store' := by
  induction requests generalizing s with
  | nil => exact ⟨rfl, h, hname⟩
  | cons request rest ih =>
      obtain ⟨hrun, hrest⟩ := ih (h.step request) (s.store_step request ▸ hname)
      refine ⟨?_, hrest⟩
      show ((s.renamed name store').step request).2.run rest = _
      rw [step_renamed h hname]
      exact hrun

end Session

/-! ### Reading and evaluating behind a store -/

/-- As long as there are ids left, what a store held before makes no difference. A formula or a
table that is read into it is the one that is read into an empty store, behind the nodes that were
there and with every id increased by their number; all those ids are smaller than the number of
bytes of the source, so that increasing them is an addition. And every session with the table gives
the same answers and counts the same. -/
theorem read_and_evaluate_behind {source : List Char} {before : Store}
    (hroom : before.size + byteLength source < 2 ^ 32 - 1) :
    (∀ id : NodeId, id.index < byteLength source →
      (id.moved before.size).index = id.index + before.size) ∧
    (∀ result alone, Formula.read source .empty = (result, alone) →
      alone.size ≤ byteLength source ∧ alone.ChildrenFirst ∧
      (∀ root, result = .ok root → root.index < alone.size) ∧
      Formula.read source before = (result.map (.moved before.size), alone.behind before)) ∧
    ∀ result alone, Table.read source .empty = (result, alone) →
      alone.size ≤ byteLength source ∧ alone.ChildrenFirst ∧
      Table.read source before =
        (result.map (Table.mapIds (.moved before.size)), alone.behind before) ∧
      ∀ t, result = .ok t →
        (∀ p f, t.get? p = some (.formula f) → f.root.index < alone.size) ∧
        ∀ requests,
          let now := (Session.start alone t).run requests
          let moved := (Session.start (alone.behind before)
            (t.mapIds (.moved before.size))).run requests
          moved.evaluator = now.evaluator ∧
            ∀ request, (moved.step request).1 = (now.step request).1 := by
  refine ⟨fun id hid => NodeId.index_moved (by omega), fun result alone hread => ?_,
    fun result alone hread => ?_⟩
  · obtain ⟨hsize, hfirst, hroot⟩ := Formula.of_read_empty hread (by omega)
    refine ⟨hsize, hfirst, hroot, ?_⟩
    rw [Formula.read_eq_behind, hread]
  · obtain ⟨hsize, hfirst, hrooted⟩ := Table.of_read_empty hread (by omega)
    refine ⟨hsize, hfirst, by rw [Table.read_eq_behind, hread], fun t ht => ⟨fun p f hp => ?_,
      fun requests => ?_⟩⟩
    · obtain ⟨tree, htree⟩ := hrooted t ht hp
      exact Store.index_lt_of_tree? htree
    · have hstart : (Session.start alone t).Rooted := ⟨hrooted t ht, hrooted t ht⟩
      have hnames : Store.Renames (.moved before.size) alone (alone.behind before) :=
        fun _ _ => Store.tree?_behind hfirst (by omega)
      obtain ⟨hrun, hnow, hnames'⟩ := Session.run_renamed hstart hnames requests
      intro now moved
      have hmoved : moved = now.renamed (.moved before.size) (alone.behind before) := hrun
      rw [hmoved]
      refine ⟨rfl, fun request => ?_⟩
      rw [Session.step_renamed hnow hnames' request]

/-- A table behind one node, whose second formula was asked for before the first one. -/
theorem read_and_evaluate_behind_of_one :
    let before := (Store.empty.push (.number 9)).2
    before.size + byteLength "=A1+1\n=2".toList < 2 ^ 32 - 1 ∧
    ∃ t store, Table.read "=A1+1\n=2".toList .empty = (.ok t, store) ∧
      Table.read "=A1+1\n=2".toList before =
        (.ok (t.mapIds (.moved 1)), store.behind before) ∧
      (((Session.start (store.behind before) (t.mapIds (.moved 1))).run
        [.evaluateCell ⟨1, 0⟩]).step (.evaluateCell ⟨0, 0⟩)).1 = .value (.ok 3) := by
  intro before
  have hroom : before.size + byteLength "=A1+1\n=2".toList < 2 ^ 32 - 1 := by decide +kernel
  have hcheck : Table.readsTo "=A1+1\n=2".toList (fun t store =>
      let now := (Session.start store t).run [.evaluateCell ⟨1, 0⟩]
      decide ((now.evaluator.evaluateCell store now.table ⟨0, 0⟩).1 = .ok 3)) = true := by
    decide +kernel
  obtain ⟨t, store, hread, hcheck⟩ := Table.exists_of_readsTo hcheck
  obtain ⟨_, _, htable⟩ := read_and_evaluate_behind hroom
  obtain ⟨_, _, hmoved, hsessions⟩ := htable _ _ hread
  obtain ⟨_, hanswers⟩ := (hsessions t rfl).2 [.evaluateCell ⟨1, 0⟩]
  refine ⟨hroom, t, store, hread, hmoved, (hanswers _).trans ?_⟩
  exact congrArg Answer.value (of_decide_eq_true hcheck)

end PipeSheet
