import PipeSheet.Evaluation.Basic
import PipeSheet.Proofs.Sheet.Basic
/-!
# PipeSheet.Proofs.Sheet.Naive

**The naive evaluator remembers nothing but the formulas that it is inside of.**

It knows no status and no earlier value: a formula is evaluated anew at every reference to it, the
left operand before the right one. The stack, innermost formula first, is all that stops it, so the
places that are not on the stack are what its recursion is on.

Whether it succeeds does not depend on the stack, as long as the stack is a chain of references that
leads to the place in question: then a place has the value that the naive evaluator computes, and
it fails exactly on the places without a value (`hasValue_of_naive`, `not_hasValue_of_naive`).

* `Formula.Tree.sumWith`, `Sheet.naive`: the evaluator;
* `Sheet.Chain`: stacks of formulas, each referring to the one above it.
-/

namespace PipeSheet

open Formula (Operand Store Tree)
open Relation (ReflTransGen TransGen)

/-! ### The evaluator -/

/-- The value of a formula, given the values of positions. The first failure from the left wins. -/
def Formula.Tree.sumWith (value : Position → Except EvalError Float) :
    Tree → Except EvalError Float
  | .number v => .ok v
  | .ref target => value target
  | .plus lhs rhs => do
    let l ← lhs.sumWith value
    let r ← rhs.sumWith value
    return l + r

/-- What holds of fewer members of a list is counted less often. -/
theorem countP_lt_countP {α : Type} {f g : α → Bool} {xs : List α}
    (h : ∀ x ∈ xs, f x = true → g x = true) {x : α} (hx : x ∈ xs) (hg : g x = true)
    (hf : f x = false) : xs.countP f < xs.countP g := by
  obtain ⟨before, after, rfl⟩ := List.append_of_mem hx
  have hb : before.countP f ≤ before.countP g :=
    List.countP_mono_left fun y hy => h y (List.mem_append_left _ hy)
  have ha : after.countP f ≤ after.countP g :=
    List.countP_mono_left fun y hy => h y (List.mem_append_right _ (List.mem_cons_of_mem _ hy))
  simp only [List.countP_append, List.countP_cons, hf, hg]
  simp only [Bool.false_eq_true, if_false, if_true]
  omega

namespace Sheet

/-- All places, row by row. -/
def places (s : Sheet) : List Position :=
  (List.range s.rows).flatMap fun row => (List.range s.cols).map fun col => ⟨row, col⟩

theorem mem_places {s : Sheet} {p : Position} : p ∈ s.places ↔ p.row < s.rows ∧ p.col < s.cols := by
  obtain ⟨row, col⟩ := p
  simp [places]

theorem mem_places_of_at? {s : Sheet} {p : Position} {c : Content} (h : s.at? p = some c) :
    p ∈ s.places :=
  mem_places.2 (s.inside_of_at? h)

/-- The path that is reported when a place on the stack is entered again: the stack from that place
to its top, and the place. -/
def loop (stack : List Position) (p : Position) : List Position :=
  stack.reverse.dropWhile (· ≠ p) ++ [p]

/-- The value of a place, asked for by the innermost formula of the stack. -/
def naive (s : Sheet) (stack : List Position) (p : Position) : Except EvalError Float :=
  match _h : s.at? p with
  | none => .error (.outOfBounds p stack.head? s.rows s.cols)
  | some .empty => .ok 0
  | some (.number value) => .ok value
  | some (.text content) => .error (.typeMismatch p stack.head? content)
  | some (.formula tree) =>
    if _hp : p ∈ stack then .error (.circularDependency p (loop stack p))
    else tree.sumWith fun q => s.naive (p :: stack) q
termination_by s.places.countP fun q => decide (q ∉ stack)
decreasing_by
  -- `p` is a place of the sheet that is not on the stack yet.
  refine countP_lt_countP (fun q _ hq => ?_) (mem_places_of_at? _h) (by simpa using _hp) (by simp)
  simp only [List.mem_cons, not_or, decide_eq_true_eq] at hq ⊢
  exact hq.2

section Equations

variable {s : Sheet} {p : Position} {content : List Char} {value : Float} {tree : Tree}

theorem naive_of_outside (h : s.at? p = none) (stack : List Position) :
    s.naive stack p = .error (.outOfBounds p stack.head? s.rows s.cols) := by
  rw [naive]
  split <;> simp_all

theorem naive_of_empty (h : s.at? p = some .empty) (stack : List Position) :
    s.naive stack p = .ok 0 := by
  rw [naive]
  split <;> simp_all

theorem naive_of_number (h : s.at? p = some (.number value)) (stack : List Position) :
    s.naive stack p = .ok value := by
  rw [naive]
  split <;> simp_all

theorem naive_of_text (h : s.at? p = some (.text content)) (stack : List Position) :
    s.naive stack p = .error (.typeMismatch p stack.head? content) := by
  rw [naive]
  split <;> simp_all

theorem naive_of_mem (h : s.at? p = some (.formula tree)) {stack : List Position} (hp : p ∈ stack) :
    s.naive stack p = .error (.circularDependency p (loop stack p)) := by
  rw [naive]
  split <;> simp_all

theorem naive_of_not_mem (h : s.at? p = some (.formula tree)) {stack : List Position}
    (hp : p ∉ stack) : s.naive stack p = tree.sumWith fun q => s.naive (p :: stack) q := by
  rw [naive]
  split <;> simp_all

end Equations

end Sheet

/-! ### Sums -/

namespace Formula.Tree

variable {value : Position → Except EvalError Float}

theorem sumWith_plus (lhs rhs : Tree) :
    (plus lhs rhs).sumWith value =
      match lhs.sumWith value, rhs.sumWith value with
      | .ok a, .ok b => .ok (a + b)
      | .ok _, .error e => .error e
      | .error e, _ => .error e := by
  rw [sumWith]
  cases lhs.sumWith value with
  | error e => rfl
  | ok a => cases rhs.sumWith value <;> rfl

/-- A sum fails with the failure of one of its references. -/
theorem exists_of_sumWith_error {tree : Tree} {e : EvalError} (h : tree.sumWith value = .error e) :
    ∃ q, .ref q ∈ tree.operands ∧ value q = .error e := by
  induction tree with
  | number v => simp [sumWith] at h
  | ref target => exact ⟨target, by simp [operands], h⟩
  | plus lhs rhs ihl ihr =>
      rw [sumWith_plus] at h
      cases hl : lhs.sumWith value with
      | error e' =>
          obtain rfl : e' = e := by simpa [hl] using h
          obtain ⟨q, hq, hv⟩ := ihl hl
          exact ⟨q, List.mem_append_left _ hq, hv⟩
      | ok a =>
          cases hr : rhs.sumWith value with
          | error e' =>
              obtain rfl : e' = e := by simpa [hl, hr] using h
              obtain ⟨q, hq, hv⟩ := ihr hr
              exact ⟨q, List.mem_append_right _ hq, hv⟩
          | ok b => simp [hl, hr] at h

/-- The result of a sum is its value, if the results of the references are theirs. -/
theorem hasValue_of_sumWith {s : Sheet} {tree : Tree} {v : Float} (h : tree.sumWith value = .ok v)
    (href : ∀ q w, .ref q ∈ tree.operands → value q = .ok w → s.HasValue (.place q) w) :
    s.HasValue (.tree tree) v := by
  induction tree generalizing v with
  | number w =>
      obtain rfl : w = v := by simpa [sumWith] using h
      exact .literal
  | ref target => exact .reference (href target v (by simp [operands]) h)
  | plus lhs rhs ihl ihr =>
      rw [sumWith_plus] at h
      cases hl : lhs.sumWith value with
      | error e => simp [hl] at h
      | ok a =>
          cases hr : rhs.sumWith value with
          | error e => simp [hl, hr] at h
          | ok b =>
              obtain rfl : a + b = v := by simpa [hl, hr] using h
              exact .plus (ihl hl fun q w hq => href q w (List.mem_append_left _ hq))
                (ihr hr fun q w hq => href q w (List.mem_append_right _ hq))

end Formula.Tree

/-! ### Success does not depend on the stack -/

namespace Sheet

variable {s : Sheet} {stack : List Position} {p : Position}

/-- Every formula of a stack refers to the one above it, and the innermost one refers to `p`. -/
def Chain (s : Sheet) : List Position → Position → Prop
  | [], _ => True
  | origin :: rest, p => s.References origin p ∧ s.Chain rest origin

/-- A chain leads from each of its formulas to its end. -/
theorem Chain.leads (h : s.Chain stack p) {q : Position} (hq : q ∈ stack) :
    TransGen s.References q p := by
  induction stack generalizing p with
  | nil => simp at hq
  | cons origin rest ih =>
      rcases List.mem_cons.1 hq with rfl | hq
      · exact .single h.1
      · exact .tail (ih h.2 hq) h.1

/-- A place on a chain that leads to it has no value. -/
theorem Chain.not_hasValue (h : s.Chain stack p) (hp : p ∈ stack) (v : Float) :
    ¬ s.HasValue (.place p) v :=
  fun hv => hv.not_cyclic (h.leads hp)

/-- What the naive evaluator computes is the value, on whatever stack. -/
theorem hasValue_of_naive {v : Float} (h : s.naive stack p = .ok v) : s.HasValue (.place p) v := by
  fun_induction naive s stack p generalizing v with
  | case1 stack p hp => cases h
  | case2 stack p hp =>
      obtain rfl : 0 = v := by simpa using h
      exact .empty hp
  | case3 stack p value hp =>
      obtain rfl : value = v := by simpa using h
      exact .number hp
  | case4 stack p content hp => cases h
  | case5 stack p tree hp hmem => cases h
  | case6 stack p tree hp hmem ih =>
      exact .formula hp (Tree.hasValue_of_sumWith h fun q w _ hw => ih q hw)

/-- Where the naive evaluator fails there is no value, if the stack leads there. A cycle through the
stack is a cycle of the place itself. -/
theorem not_hasValue_of_naive {e : EvalError} (hchain : s.Chain stack p)
    (h : s.naive stack p = .error e) (v : Float) : ¬ s.HasValue (.place p) v := by
  fun_induction naive s stack p generalizing e v with
  | case1 stack p hp => exact not_hasValue_of_outside hp v
  | case2 stack p hp => cases h
  | case3 stack p value hp => cases h
  | case4 stack p content hp => exact not_hasValue_of_text hp v
  | case5 stack p tree hp hmem => exact hchain.not_hasValue hmem v
  | case6 stack p tree hp hmem ih =>
      -- The place that failed extends the chain by one, so it has no value either.
      intro hv
      obtain ⟨q, hq, hfail⟩ := Tree.exists_of_sumWith_error h
      have href : s.References p q := ⟨tree, hp, hq⟩
      obtain ⟨w, hw⟩ := hv.of_references href
      exact ih q ⟨href, hchain⟩ hfail w hw

/-- Along a chain the naive evaluator computes exactly the values. -/
theorem naive_eq_ok_iff (hchain : s.Chain stack p) {v : Float} :
    s.naive stack p = .ok v ↔ s.HasValue (.place p) v := by
  constructor
  · exact hasValue_of_naive
  · intro hv
    cases h : s.naive stack p with
    | error e => exact absurd hv (not_hasValue_of_naive hchain h v)
    | ok w => rw [(hasValue_of_naive h).unique hv]

end Sheet

end PipeSheet
