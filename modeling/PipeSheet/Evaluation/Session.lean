import PipeSheet.Evaluation.Basic
/-!
# PipeSheet.Evaluation.Session

**A session asks one table again and again.**

Requests are answered one after another, and each starts from the state that the one before left,
also after a failure. A session may begin afresh with a new evaluator, and it may keep a copy of the
table and put it back; the evaluator is then not touched, so it may remember formulas that the table
no longer shows as begun.

* `Session`, `Session.step`: the state and one request;
* `Session.run`: a list of requests.
-/

namespace PipeSheet

open Formula (Store)

/-- A table under evaluation, its evaluator, and the copy of the table that was kept. -/
structure Session where
  store : Store
  table : Table
  evaluator : Evaluator := {}
  kept : Table

/-- What may be asked of a session. -/
inductive Request where
  | evaluateCell (p : Position)
  | evaluateTable
  | newEvaluator
  | keep
  | putBack
  deriving DecidableEq, Repr

/-- What a session answers. -/
inductive Answer where
  | value (result : Except Halt Float)
  | grid (result : Except Halt Grid)
  | done

namespace Session

/-- The session with a table that was just read. -/
def start (store : Store) (table : Table) : Session where
  store := store
  table := table
  kept := table

/-- Answers a request. -/
def step (s : Session) : Request → Answer × Session
  | .evaluateCell p =>
    let (result, evaluator, table) := s.evaluator.evaluateCell s.store s.table p
    (.value result, { s with evaluator, table })
  | .evaluateTable =>
    let (result, evaluator, table) := s.evaluator.evaluateTable s.store s.table
    (.grid result, { s with evaluator, table })
  | .newEvaluator => (.done, { s with evaluator := {} })
  | .keep => (.done, { s with kept := s.table })
  | .putBack => (.done, { s with table := s.kept })

/-- The session after some requests. -/
def run (s : Session) (requests : List Request) : Session :=
  requests.foldl (fun s request => (s.step request).2) s

end Session

end PipeSheet
