import PipeSheet.Evaluation.Basic
import PipeSheet.Proofs.Evaluation.Adequacy
import PipeSheet.Proofs.Sheet.Grid
/-!
# PipeSheet.Proofs.Evaluation.Sound

**An evaluation succeeds exactly where there is a value, whatever happened before.**

A failed call leaves formulas in progress, and later calls meet them. What saves the later calls is
that such a formula is *doomed*: it has no value. Either it failed because something below it has
none, or it was met again from below, and then it is on a cycle. So the invariant `Sound` says of a
table that is between two calls:

* an evaluated formula has the value that it holds;
* a formula in progress has no value.

Within a call the formulas on the stack are in progress too, and nothing is known of them yet; they
are a chain that leads to the subject under evaluation. `Runs.sound` carries the invariant through
both ends of a run, and reads off what its result means.
-/

namespace PipeSheet

open Formula (NodeId Store Tree)
open Sheet (Subject)

variable {store : Store} {s : Sheet} {stack : List Position} {σ σ' : EvalState}

/-! ### The invariant -/

/-- The states of a table's formulas are right, where those on the stack are being evaluated. -/
structure Sound (store : Store) (s : Sheet) (stack : List Position) (t : Table) : Prop where
  sheet_eq : t.sheet store = s
  hasValue : ∀ {p : Position} {f : FormulaCell}, t.get? p = some (.formula f) →
    f.status = .evaluated → s.HasValue (.place p) f.value
  doomed : ∀ {p : Position} {f : FormulaCell}, t.get? p = some (.formula f) →
    f.status = .inProgress → p ∈ stack ∨ ∀ v, ¬ s.HasValue (.place p) v

namespace Sound

variable {t : Table} {p : Position} {f : FormulaCell} {tree : Tree}

theorem at?_of_get? (h : Sound store s stack t) {cell : Cell} (hp : t.get? p = some cell) :
    s.at? p = some (cell.content store) := by
  rw [← h.sheet_eq, t.at?_sheet, hp]
  rfl

theorem at?_of_outside (h : Sound store s stack t) (hp : t.get? p = none) : s.at? p = none := by
  rw [← h.sheet_eq, t.at?_sheet, hp]
  rfl

theorem at?_of_formula (h : Sound store s stack t) (hp : t.get? p = some (.formula f))
    (htree : store.tree? f.root = some tree) : s.at? p = some (.formula tree) := by
  rw [← h.sheet_eq]
  exact t.at?_sheet_of_formula hp htree

/-- A table without any evaluation is sound. -/
theorem of_unevaluated (h : ∀ {p : Position} {f : FormulaCell}, t.get? p = some (.formula f) →
    f.status = .unevaluated) : Sound store (t.sheet store) stack t := by
  refine ⟨rfl, fun hp hs => ?_, fun hp hs => ?_⟩
  · rw [h hp] at hs
    cases hs
  · rw [h hp] at hs
    cases hs

/-- A formula that begins is put on the stack. -/
theorem enter (h : Sound store s stack t) (hp : t.get? p = some (.formula f))
    (hs : f.status = .unevaluated) :
    Sound store s (p :: stack) (t.setFormula p .inProgress 0) := by
  have hlater : t.Later (t.setFormula p .inProgress 0) := .of_setFormula hp hs _ _
  refine ⟨(hlater.sheet_eq store).trans h.sheet_eq, fun {q g} hq hg => ?_, fun {q g} hq hg => ?_⟩
  · rcases Table.formula_setFormula hp hq with ⟨_, rfl⟩ | ⟨_, hq⟩
    · cases hg
    · exact h.hasValue hq hg
  · rcases Table.formula_setFormula hp hq with ⟨rfl, _⟩ | ⟨_, hq⟩
    · exact .inl List.mem_cons_self
    · exact (h.doomed hq hg).imp_left (List.mem_cons_of_mem p)

/-- A formula that ends with its value leaves the stack. -/
theorem leave {v : Float} (h : Sound store s (p :: stack) t) (hp : t.get? p = some (.formula f))
    (hv : s.HasValue (.place p) v) : Sound store s stack (t.setFormula p .evaluated v) := by
  -- The formula was begun before, so the change is no `Later`; but its root stays.
  have hsheet : (t.setFormula p .evaluated v).sheet store = t.sheet store := by
    refine Sheet.ext rfl rfl fun q => ?_
    rw [Table.at?_sheet, Table.at?_sheet]
    by_cases hqp : q = p
    · rw [hqp, Table.get?_setFormula_self hp, hp]
      rfl
    · rw [Table.get?_setFormula_of_ne hp _ _ hqp]
  refine ⟨hsheet.trans h.sheet_eq, fun {q g} hq hg => ?_, fun {q g} hq hg => ?_⟩
  · rcases Table.formula_setFormula hp hq with ⟨rfl, rfl⟩ | ⟨_, hq⟩
    · exact hv
    · exact h.hasValue hq hg
  · rcases Table.formula_setFormula hp hq with ⟨_, rfl⟩ | ⟨hqp, hq⟩
    · cases hg
    · refine (h.doomed hq hg).imp_left fun hmem => ?_
      exact (List.mem_cons.1 hmem).resolve_left hqp

/-- A formula that fails stays in progress, and leaves the stack because it is doomed. -/
theorem drop (h : Sound store s (p :: stack) t) (hp : ∀ v, ¬ s.HasValue (.place p) v) :
    Sound store s stack t := by
  refine ⟨h.sheet_eq, h.hasValue, fun {q g} hq hg => ?_⟩
  rcases h.doomed hq hg with hmem | hno
  · rcases List.mem_cons.1 hmem with rfl | hmem
    · exact .inr hp
    · exact .inl hmem
  · exact .inr hno

end Sound

/-! ### Runs -/

namespace Sheet

/-- The places that a subject asks for first. -/
def Subject.Asks : Subject → Position → Prop
  | .place p, q => q = p
  | .tree t, q => .ref q ∈ t.operands

/-- The stack is a chain of references that leads to whatever the subject asks for. -/
def Leads (s : Sheet) (stack : List Position) (x : Subject) : Prop :=
  ∀ q, x.Asks q → s.Chain stack q

/-- A result is right: it is the value, or a failure where there is no value. -/
def Answers (s : Sheet) (x : Subject) : Except EvalError Float → Prop
  | .ok v => s.HasValue x v
  | .error _ => ∀ v, ¬ s.HasValue x v

variable {p : Position} {lhs rhs tree : Tree}

theorem leads_nil (x : Subject) : s.Leads [] x := fun _ _ => trivial

theorem Leads.chain (h : s.Leads stack (.place p)) : s.Chain stack p := h p rfl

/-- A formula leads to what it refers to. -/
theorem Leads.enter (h : s.Leads stack (.place p)) (hp : s.at? p = some (.formula tree)) :
    s.Leads (p :: stack) (.tree tree) :=
  fun _ hq => ⟨⟨tree, hp, hq⟩, h.chain⟩

theorem Leads.reference (h : s.Leads stack (.tree (.ref p))) : s.Leads stack (.place p) := by
  rintro q rfl
  exact h q List.mem_cons_self

theorem Leads.left (h : s.Leads stack (.tree (.plus lhs rhs))) : s.Leads stack (.tree lhs) :=
  fun q hq => h q (List.mem_append_left _ hq)

theorem Leads.right (h : s.Leads stack (.tree (.plus lhs rhs))) : s.Leads stack (.tree rhs) :=
  fun q hq => h q (List.mem_append_right _ hq)

end Sheet

/-- A run keeps the invariant, and its result is right. -/
theorem Runs.sound {o : Option Position} {x : Subject} {r : Except EvalError Float}
    (h : Runs store o x σ r σ') (hsound : Sound store s stack σ.table) (hleads : s.Leads stack x) :
    Sound store s stack σ'.table ∧ s.Answers x r := by
  induction h generalizing stack with
  | @outside o p σ hp =>
      exact ⟨hsound, Sheet.not_hasValue_of_outside (hsound.at?_of_outside hp)⟩
  | @empty o p σ hp =>
      exact ⟨hsound, .empty (hsound.at?_of_get? hp)⟩
  | @number o p v σ hp =>
      exact ⟨hsound, .number (hsound.at?_of_get? hp)⟩
  | @text o p span content σ hp =>
      exact ⟨hsound, Sheet.not_hasValue_of_text (hsound.at?_of_get? hp)⟩
  | cached hp hs => exact ⟨hsound, hsound.hasValue hp hs⟩
  | cycle hp hs =>
      -- On the stack the chain closes; off it the formula was left behind by an earlier failure.
      refine ⟨hsound, ?_⟩
      rcases hsound.doomed hp hs with hmem | hno
      · exact hleads.chain.not_hasValue hmem
      · exact hno
  | done hp hs htree hrun ih =>
      have hat := hsound.at?_of_formula hp htree
      obtain ⟨hsound', hv⟩ := ih (hsound.enter hp hs) (hleads.enter hat)
      have hp' := hrun.later.get?_of_begun (Table.get?_setFormula_self hp .inProgress 0) (by simp)
      exact ⟨hsound'.leave hp' (.formula hat hv), .formula hat hv⟩
  | broken hp hs htree hrun ih =>
      have hat := hsound.at?_of_formula hp htree
      obtain ⟨hsound', hno⟩ := ih (hsound.enter hp hs) (hleads.enter hat)
      have hdoomed : ∀ v, ¬ s.HasValue (.place _) v := fun v hv => hno v (hv.tree_of_place hat)
      exact ⟨hsound'.drop hdoomed, hdoomed⟩
  | literal => exact ⟨hsound, .literal⟩
  | @reference o q r σ σ' hrun ih =>
      obtain ⟨hsound', hanswer⟩ := ih hsound hleads.reference
      refine ⟨hsound', ?_⟩
      cases r with
      | ok v => exact .reference hanswer
      | error e =>
          rintro v (_ | _ | _ | _ | hv)
          exact hanswer v hv
  | plus hrun₁ hrun₂ ih₁ ih₂ =>
      obtain ⟨hsound₁, ha⟩ := ih₁ hsound hleads.left
      obtain ⟨hsound₂, hb⟩ := ih₂ hsound₁ hleads.right
      exact ⟨hsound₂, .plus ha hb⟩
  | plusLeft hrun ih =>
      obtain ⟨hsound', hno⟩ := ih hsound hleads.left
      refine ⟨hsound', fun v hv => ?_⟩
      cases hv with
      | plus ha _ => exact hno _ ha
  | plusRight hrun₁ hrun₂ ih₁ ih₂ =>
      obtain ⟨hsound₁, _⟩ := ih₁ hsound hleads.left
      obtain ⟨hsound₂, hno⟩ := ih₂ hsound₁ hleads.right
      refine ⟨hsound₂, fun v hv => ?_⟩
      cases hv with
      | plus _ hb => exact hno _ hb

end PipeSheet
