import PipeSheet.Proofs.Formula.Language
import PipeSheet.Proofs.Formula.OperandText
import PipeSheet.Proofs.Formula.Partition
/-!
# PipeSheet.Proofs.Formula.Display

**A formula is read again from its text, once the parentheses are taken out.**

The text of a formula shows every sum in parentheses, and formulas have none. But sums are grouped
to the right in any case, so the parentheses say nothing that the order of the operands does not
say. Without them the text is the operands with plus signs between them, and each operand is a word
that writes it. So the text has the operands of the source that it was read from, whatever their
spelling was there, and what the source has behind its last operand is gone.

* `withoutParens`: a text without its parentheses;
* `scan_withoutParens`: the operands of the text of a sum;
* `operandsOf_withoutParens`: reading the text is reading the source.
-/

namespace PipeSheet.Formula

variable {stop : Span} {operands : List Operand} {o : Operand} {source : List Char}

/-! ### The text of a sum -/

/-- A text without its parentheses. -/
def withoutParens (text : List Char) : List Char :=
  text.filter fun c => c ≠ '(' && c ≠ ')'

theorem withoutParens_append (s t : List Char) :
    withoutParens (s ++ t) = withoutParens s ++ withoutParens t :=
  List.filter_append ..

theorem Operand.Shown.withoutParens_eq (h : o.Shown) :
    withoutParens o.tree.render = o.tree.render := by
  refine List.filter_eq_self.2 fun c hc => ?_
  have halphanum := h.isAlphanum c hc
  have hne : ∀ d : Char, d.isAlphanum = false → c ≠ d := fun d hd heq => by
    rw [heq, hd] at halphanum
    cases halphanum
  simp [hne '(' (by decide), hne ')' (by decide)]

theorem withoutParens_render_cons (h : o.Shown) (hne : operands ≠ []) :
    withoutParens (Tree.sum (o :: operands)).render =
      o.tree.render ++ ' ' :: '+' :: ' ' :: withoutParens (Tree.sum operands).render := by
  have hopen : withoutParens ['('] = [] := rfl
  have hclose : withoutParens [')'] = [] := rfl
  have hplus : withoutParens [' ', '+', ' '] = [' ', '+', ' '] := rfl
  rw [Tree.sum_cons o hne, Tree.render_plus, ← List.singleton_append, withoutParens_append,
    withoutParens_append, withoutParens_append, withoutParens_append, h.withoutParens_eq, hopen,
    hclose, hplus, List.append_nil, List.nil_append, List.append_assoc]
  rfl

/-! ### Its operands -/

theorem Operand.Shown.isWordChar (h : o.Shown) : ∀ c ∈ o.tree.render, isWordChar c := by
  intro c hc
  rw [Formula.isWordChar, h.isAlphanum c hc, Bool.true_or]

/-- The text of a sum has the operands of the sum, and nothing is wrong with it. -/
theorem scan_withoutParens (hshown : ∀ o ∈ operands, o.Shown) (hne : operands ≠ []) (start : Nat) :
    scan stop (lexemesFrom start (withoutParens (Tree.sum operands).render)) =
      (operands, none) := by
  induction operands generalizing start with
  | nil => exact absurd rfl hne
  | cons o operands ih =>
      have ho := hshown o List.mem_cons_self
      by_cases hnil : operands = []
      · subst hnil
        have hend : ∀ c ∈ ([] : List Char).head?, ¬ isWordChar c := nofun
        have hword := lexemesFrom_word ho.ne_nil ho.isWordChar hend start
        rw [List.append_nil] at hword
        rw [show Tree.sum [o] = o.tree from rfl, ho.withoutParens_eq, hword]
        simp only [scan, ho.ofText?_eq]
        rfl
      · have hend : ∀ c ∈ (' ' :: '+' :: ' ' :: withoutParens (Tree.sum operands).render).head?,
            ¬ isWordChar c := by
          rintro c ⟨⟩
          decide
        rw [withoutParens_render_cons ho hnil, lexemesFrom_word ho.ne_nil ho.isWordChar hend,
          lexemesFrom_space (by decide), lexemesFrom_plus, lexemesFrom_space (by decide),
          scan_sum_cons ho.ofText?_eq rfl,
          ih (fun o' ho' => hshown o' (List.mem_cons_of_mem _ ho')) hnil]

/-! ### The operands of a source -/

/-- The operands of a formula are written by words. -/
theorem shown_of_mem_operandsOf : ∀ o ∈ (operandsOf source).1, o.Shown := by
  intro o ho
  obtain ⟨t, ht, htext⟩ := exists_of_mem_scan ho
  cases hkind : t.kind with
  | plus =>
      rw [proper_of_mem_lexemes ht t rfl hkind] at htext
      cases htext
  | word =>
      obtain ⟨_, _, _, hstands⟩ := (fallsInto_lexemes source).exists_standsAt ht
      exact Operand.shown_of_ofText? (hstands.word t rfl hkind).2.1 htext

/-- Reading the text of a formula is reading the formula. -/
theorem read_withoutParens (h : (operandsOf source).2 = none) (store : Store) :
    read (withoutParens (Tree.sum (operandsOf source).1).render) store = read source store := by
  have hoperands : operandsOf (withoutParens (Tree.sum (operandsOf source).1).render) =
      operandsOf source :=
    (scan_withoutParens shown_of_mem_operandsOf (scan_ne_nil h) 0).trans
      (Prod.ext rfl h.symm)
  rw [read_eq, read_eq, hoperands]

end PipeSheet.Formula
