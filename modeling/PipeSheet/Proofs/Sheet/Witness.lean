import Mathlib.Data.List.Chain
import PipeSheet.Proofs.Sheet.Solvable
/-!
# PipeSheet.Proofs.Sheet.Witness

**Whatever an error of the naive evaluator says can be seen on the sheet.**

An error about a text or a place outside names the formula that led there, and the formula is the
innermost one of the stack. The path of a cycle is cut out of the stack, so it is a cycle because
the stack is a chain of references without repetitions.

* `Sheet.Cycle`: a way along references that comes back to where it began, and nowhere else;
* `Sheet.LedBy`: the formula that led to a place;
* `Sheet.Witnesses`: that an error says what the sheet shows;
* `witnesses_of_naive`, `reaches_of_naive`: the law, and that the place of the error is within
  reach.
-/

namespace PipeSheet

open Formula (Tree)
open Relation (ReflTransGen)

namespace Sheet

variable {s : Sheet} {stack : List Position} {p : Position} {asked : Option Position}
  {e : EvalError}

/-! ### Ways along references -/

/-- The path goes around a cycle: from the place back to it, through formulas each of which refers
to the next one, and through no other place twice. -/
structure Cycle (s : Sheet) (cell : Position) (path : List Position) : Prop where
  two_le_length : 2 ≤ path.length
  head?_eq : path.head? = some cell
  getLast?_eq : path.getLast? = some cell
  nodup : path.dropLast.Nodup
  isFormula : ∀ p ∈ path, s.IsFormula p
  references : path.IsChain s.References

/-- Read from its outermost formula, a stack is a way to the place that it leads to. -/
theorem Chain.isChain (h : s.Chain stack p) : (stack.reverse ++ [p]).IsChain s.References := by
  induction stack generalizing p with
  | nil => exact List.isChain_singleton p
  | cons origin rest ih =>
      rw [List.reverse_cons]
      refine List.isChain_append.2 ⟨ih h.2, List.isChain_singleton p, fun x hx y hy => ?_⟩
      obtain rfl : origin = x := by simpa using hx
      obtain rfl : p = y := by simpa using hy
      exact h.1

theorem Chain.isFormula (h : s.Chain stack p) {q : Position} (hq : q ∈ stack) : s.IsFormula q := by
  induction stack generalizing p with
  | nil => exact absurd hq List.not_mem_nil
  | cons origin rest ih =>
      rcases List.mem_cons.1 hq with rfl | hq
      · exact h.1.isFormula
      · exact ih h.2 hq

/-- The path of a cycle begins where the place is on the stack, and ends with the place again. -/
theorem exists_loop_eq (hp : p ∈ stack) :
    ∃ inner, loop stack p = p :: inner ++ [p] ∧ p :: inner <:+ stack.reverse := by
  have key : ∀ xs : List Position, p ∈ xs → ∃ inner, xs.dropWhile (· ≠ p) = p :: inner := by
    intro xs
    induction xs with
    | nil => exact fun h => absurd h List.not_mem_nil
    | cons x xs ih =>
        intro h
        by_cases hx : x = p
        · exact ⟨xs, by simp [hx]⟩
        · obtain ⟨inner, hinner⟩ := ih ((List.mem_cons.1 h).resolve_left (Ne.symm hx))
          exact ⟨inner, by simpa [hx] using hinner⟩
  obtain ⟨inner, hinner⟩ := key _ (List.mem_reverse.2 hp)
  refine ⟨inner, congrArg (· ++ [p]) hinner, ?_⟩
  rw [← hinner]
  exact List.dropWhile_suffix _

/-- A place on the stack that leads to it is on a cycle, and the path that is reported goes around
it. -/
theorem Chain.cycle_loop (h : s.Chain stack p) (hnodup : stack.Nodup) (hp : p ∈ stack) :
    s.Cycle p (loop stack p) := by
  obtain ⟨inner, hloop, hsuffix⟩ := exists_loop_eq hp
  have hway : p :: inner ++ [p] <:+ stack.reverse ++ [p] := by
    obtain ⟨outer, houter⟩ := hsuffix
    exact ⟨outer, by rw [← houter, List.append_assoc]⟩
  rw [hloop]
  refine ⟨by simp, rfl, List.getLast?_concat, ?_, fun q hq => ?_, h.isChain.suffix hway⟩
  · rw [List.dropLast_concat]
    exact (List.nodup_reverse.2 hnodup).sublist hsuffix.sublist
  · rcases List.mem_append.1 hq with hq | hq
    · exact h.isFormula (List.mem_reverse.1 (hsuffix.subset hq))
    · obtain rfl : q = p := List.mem_singleton.1 hq
      exact h.isFormula hp

/-! ### Errors -/

/-- The formula at `origin` led to the place by a reference. Without one the place itself was
asked for. -/
def LedBy (s : Sheet) (asked origin : Option Position) (cell : Position) : Prop :=
  match origin with
  | none => asked = some cell
  | some p => s.References p cell

/-- The sheet shows what the error says, when `asked` was asked for, or no place in particular. -/
def Witnesses (s : Sheet) (asked : Option Position) : EvalError → Prop
  | .circularDependency cell path => s.Cycle cell path
  | .typeMismatch cell origin content =>
    s.at? cell = some (.text content) ∧ s.LedBy asked origin cell
  | .outOfBounds cell origin rows cols =>
    s.at? cell = none ∧ rows = s.rows ∧ cols = s.cols ∧ s.LedBy asked origin cell

/-- The innermost formula of the stack led to the place, or the place itself was asked for. -/
theorem Chain.ledBy (h : s.Chain stack p) (hasked : stack = [] → asked = some p) :
    s.LedBy asked stack.head? p := by
  cases stack with
  | nil => exact hasked rfl
  | cons origin rest => exact h.1

/-- An error of the naive evaluator is witnessed, if the stack is a chain that leads to the
place. -/
theorem witnesses_of_naive (h : s.naive stack p = .error e) (hchain : s.Chain stack p)
    (hnodup : stack.Nodup) (hasked : stack = [] → asked = some p) : s.Witnesses asked e := by
  fun_induction naive s stack p with
  | case1 stack p hp =>
      cases h
      exact ⟨hp, rfl, rfl, hchain.ledBy hasked⟩
  | case2 stack p hp => cases h
  | case3 stack p value hp => cases h
  | case4 stack p content hp =>
      cases h
      exact ⟨hp, hchain.ledBy hasked⟩
  | case5 stack p tree hp hmem =>
      cases h
      exact hchain.cycle_loop hnodup hmem
  | case6 stack p tree hp hmem ih =>
      obtain ⟨q, hq, hfail⟩ := Tree.exists_of_sumWith_error h
      have href : s.References p q := ⟨tree, hp, hq⟩
      exact ih q hfail ⟨href, hchain⟩ (List.nodup_cons.2 ⟨hmem, hnodup⟩) (by simp)

/-- Where a formula is evaluated for itself, a formula led to the place of the error. -/
theorem witnesses_of_naive_formula {tree : Tree} (hp : s.at? p = some (.formula tree))
    (h : s.naive [] p = .error e) : s.Witnesses none e := by
  rw [naive_of_not_mem hp List.not_mem_nil] at h
  obtain ⟨q, hq, hfail⟩ := Tree.exists_of_sumWith_error h
  have hchain : s.Chain [p] q := ⟨⟨tree, hp, hq⟩, trivial⟩
  exact witnesses_of_naive hfail hchain (List.nodup_singleton p) (by simp)

/-- References lead from the place in question to the one that the error is about. -/
theorem reaches_of_naive (h : s.naive stack p = .error e) :
    ReflTransGen s.References p e.cell := by
  fun_induction naive s stack p with
  | case1 stack p hp => cases h; exact .refl
  | case2 stack p hp => cases h
  | case3 stack p value hp => cases h
  | case4 stack p content hp => cases h; exact .refl
  | case5 stack p tree hp hmem => cases h; exact .refl
  | case6 stack p tree hp hmem ih =>
      obtain ⟨q, hq, hfail⟩ := Tree.exists_of_sumWith_error h
      have href : s.References p q := ⟨tree, hp, hq⟩
      exact .head href (ih q hfail)

end Sheet

end PipeSheet
