import Mathlib.Data.List.SplitBy
import PipeSheet.Formula.Reader
/-!
# PipeSheet.Proofs.Formula.Scan

**Reading a formula is finding its operands, and then building it.**

The reader does both at once. Here they are apart: `scan` finds the operands and the error that ends
them, if there is one, and knows nothing of a store; `pushOperands` and `build` put the operands
into a store and sum them up, and know nothing of a text. `readSum_eq` says that reading is the one
after the other, so a fact about the language of formulas is proved of `scan` and a fact about the
nodes is proved of lists of operands.
-/

namespace PipeSheet.Formula

/-! ### The two halves -/

/-- The operands that some lexemes begin with, and the error that follows them. -/
def scan (stop : Span) : List Lexeme → List Operand × Option FormulaError
  | [] => ([], some (.unexpectedEnd stop))
  | .unrecognized u :: _ => ([], some (.unrecognized u))
  | .token t :: rest =>
    match Operand.ofText? t.text with
    | none => ([], some (.invalidReference t.text t.span))
    | some operand =>
      match rest with
      | .unrecognized u :: _ => ([operand], some (.unrecognized u))
      | .token ⟨.plus, _, _⟩ :: rest => (operand :: (scan stop rest).1, (scan stop rest).2)
      | .token ⟨.word, _, _⟩ :: _ | [] => ([operand], none)

/-- Puts operands into a store. Their ids go in front of those that are already there. -/
def pushOperands (pending : List NodeId) : List Operand → Store → List NodeId × Store
  | [], store => (pending, store)
  | operand :: rest, store =>
    pushOperands ((store.push operand.node).1 :: pending) rest (store.push operand.node).2

/-- Sums up the nodes of some ids, last one first. It takes at least one id. -/
def build : List NodeId → Store → NodeId × Store
  | [], store => (.invalid, store)
  | last :: pending, store => addSums last pending store

/-- What reading does with the operands and the error that were found. -/
def finish (pending : List NodeId) (found : List Operand × Option FormulaError) (store : Store) :
    Except FormulaError NodeId × Store :=
  let (ids, store) := pushOperands pending found.1 store
  match found.2 with
  | some e => (.error e, store)
  | none => (.ok (build ids store).1, (build ids store).2)

theorem finish_cons (pending : List NodeId) (operand : Operand) (operands : List Operand)
    (e : Option FormulaError) (store : Store) :
    finish pending (operand :: operands, e) store =
      finish ((store.push operand.node).1 :: pending) (operands, e) (store.push operand.node).2 :=
  rfl

/-- Reading is scanning and building. -/
theorem readSum_eq (stop : Span) (pending : List NodeId) (lexemes : List Lexeme) (store : Store) :
    readSum stop pending lexemes store = finish pending (scan stop lexemes) store := by
  fun_induction readSum stop pending lexemes store with
  | case1 pending store => rfl
  | case2 pending u rest store => rfl
  | case3 pending t rest store h => simp only [scan, h]; rfl
  | case4 pending t store operand h id store₁ hpush u rest =>
      simp only [scan, h]
      rw [finish_cons, hpush]
      rfl
  | case5 pending t store operand h id store₁ hpush text span rest ih =>
      simp only [scan, h]
      rw [finish_cons, hpush]
      exact ih
  | case6 pending t store operand h id store₁ hpush text span rest root store₂ hsums =>
      simp only [scan, h]
      rw [finish_cons, hpush]
      simp only [finish, pushOperands, build, hsums]
  | case7 pending t store operand h id store₁ hpush root store₂ hsums =>
      simp only [scan, h]
      rw [finish_cons, hpush]
      simp only [finish, pushOperands, build, hsums]

/-! ### What is found -/

/-- Every operand that is found is written by a token. -/
theorem exists_of_mem_scan {stop : Span} {lexemes : List Lexeme} {o : Operand}
    (h : o ∈ (scan stop lexemes).1) :
    ∃ t, .token t ∈ lexemes ∧ Operand.ofText? t.text = some o := by
  fun_induction scan stop lexemes with
  | case1 | case2 | case3 => cases h
  | case4 t operand ht | case6 t operand ht | case7 t operand ht =>
      obtain rfl := List.mem_singleton.1 h
      exact ⟨t, List.mem_cons_self, ht⟩
  | case5 t operand ht text span rest ih =>
      rcases List.mem_cons.1 h with rfl | h
      · exact ⟨t, List.mem_cons_self, ht⟩
      · obtain ⟨t', hmem, ht'⟩ := ih h
        exact ⟨t', List.mem_cons_of_mem _ (List.mem_cons_of_mem _ hmem), ht'⟩

/-! ### How much is found -/

theorem scan_ne_nil {stop : Span} {lexemes : List Lexeme} (h : (scan stop lexemes).2 = none) :
    (scan stop lexemes).1 ≠ [] := by
  fun_cases scan stop lexemes with
  | case1 => simp [scan] at h
  | case2 u rest => simp [scan] at h
  | case3 t rest ht => simp [scan, ht] at h
  | case4 t operand ht u rest => simp
  | case5 t operand ht text span rest => simp
  | case6 t operand ht text span rest => simp
  | case7 t operand ht => simp

/-- Two neighbouring operands have a lexeme between them. -/
theorem length_scan_le (stop : Span) (lexemes : List Lexeme) :
    2 * (scan stop lexemes).1.length ≤ lexemes.length + 1 := by
  fun_induction scan stop lexemes with
  | case5 t operand ht text span rest ih =>
      simp only [List.length_cons]
      omega
  | _ => simp; try omega

/-- Runs keep their texts when they get their offsets. -/
theorem map_text_locateRuns (start : Nat) (rs : List (List Char)) :
    (locateRuns start rs).map Text.Piece.text = rs := by
  induction rs generalizing start with
  | nil => rfl
  | cons r rest ih => simp [locateRuns, ih]

/-- Every lexeme takes at least one character. -/
theorem length_lexemes_le (source : List Char) : (lexemes source).length ≤ source.length := by
  have hlocate : (locateRuns 0 (runs source)).length = (runs source).length := by
    conv => rhs; rw [← map_text_locateRuns 0 (runs source), List.length_map]
  have hruns : ∀ rs : List (List Char), [] ∉ rs → rs.length ≤ rs.flatten.length := by
    intro rs
    induction rs with
    | nil => simp
    | cons r rest ih =>
        intro h
        have hr : 0 < r.length := List.length_pos_iff.2 fun hr => h (by simp [hr])
        have hrest := ih fun hmem => h (List.mem_cons_of_mem r hmem)
        simp only [List.flatten_cons, List.length_append, List.length_cons]
        omega
  calc (lexemes source).length ≤ (locateRuns 0 (runs source)).length := List.length_filterMap_le _ _
    _ = (runs source).length := hlocate
    _ ≤ (runs source).flatten.length := hruns _ (List.nil_notMem_splitBy _ _)
    _ = source.length := by rw [runs, List.flatten_splitBy]

end PipeSheet.Formula
