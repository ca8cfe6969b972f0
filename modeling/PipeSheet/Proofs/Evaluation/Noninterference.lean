import PipeSheet.Proofs.Evaluation.Failure
/-!
# PipeSheet.Proofs.Evaluation.Noninterference

**A cell depends on the places that it leads to, and on nothing else.**

Two tables may differ wherever no reference from a cell leads, and their formulas may lie anywhere
in two different stores: the cell has one result in both, a value or an error with all that it says.
The naive evaluator never looks farther than along references, so on sheets that agree as far as
these lead it takes the same steps; and on tables that were just read it gives every result.

* `Sheet.AgreesFrom`: two sheets that agree as far as the references of a place lead;
* `Sheet.AgreesFrom.naive_eq`: the naive evaluator cannot tell them apart;
* `evaluateCell_noninterference`: nor can any evaluator.
-/

namespace PipeSheet

open Formula (Operand Store Tree)
open Relation (ReflTransGen)

/-- A sum depends on the values of its references. -/
theorem Formula.Tree.sumWith_congr {value value' : Position → Except EvalError Float} {tree : Tree}
    (h : ∀ q, .ref q ∈ tree.operands → value q = value' q) :
    tree.sumWith value = tree.sumWith value' := by
  induction tree with
  | number v => rfl
  | ref target => exact h target (by simp [operands])
  | plus lhs rhs ihl ihr =>
      have hl := ihl fun q hq => h q (List.mem_append_left _ hq)
      have hr := ihr fun q hq => h q (List.mem_append_right _ hq)
      rw [sumWith_plus, sumWith_plus, hl, hr]

namespace Sheet

variable {s s' : Sheet} {p q : Position}

/-! ### What a place leads to -/

/-- The places that the formula at a place refers to. -/
def referred (s : Sheet) (p : Position) : List Position :=
  match s.at? p with
  | some (.formula tree) => tree.operands.filterMap fun
    | .ref q => some q
    | .number _ => none
  | _ => []

theorem references_iff_mem_referred : s.References p q ↔ q ∈ s.referred p := by
  unfold References referred
  split
  · next tree hp =>
    rw [hp, List.mem_filterMap]
    constructor
    · rintro ⟨tree', htree, hq⟩
      cases htree
      exact ⟨_, hq, rfl⟩
    · rintro ⟨operand, hoperand, heq⟩
      cases operand with
      | number value => cases heq
      | ref target =>
          cases heq
          exact ⟨tree, rfl, hoperand⟩
  · next hno =>
    refine iff_of_false ?_ List.not_mem_nil
    rintro ⟨tree, htree, _⟩
    exact hno tree htree

/-- References do not lead out of places that refer to one another only. -/
theorem mem_of_reaches {ps : List Position} (hclosed : ∀ p ∈ ps, ∀ q ∈ s.referred p, q ∈ ps)
    (hp : p ∈ ps) (h : ReflTransGen s.References p q) : q ∈ ps := by
  induction h with
  | refl => exact hp
  | tail _ href ih => exact hclosed _ ih _ (references_iff_mem_referred.1 href)

/-! ### Sheets that agree from a place on -/

/-- The sheets have one shape, and the same content in every place that the references of the first
one lead to. -/
structure AgreesFrom (s s' : Sheet) (p : Position) : Prop where
  rows_eq : s.rows = s'.rows
  cols_eq : s.cols = s'.cols
  at?_eq : ∀ q, ReflTransGen s.References p q → s.at? q = s'.at? q

namespace AgreesFrom

/-- The agreement is handed on along a reference. -/
theorem reference (h : s.AgreesFrom s' p) (hpq : s.References p q) : s.AgreesFrom s' q :=
  ⟨h.rows_eq, h.cols_eq, fun r hr => h.at?_eq r (.head hpq hr)⟩

theorem at?_self (h : s.AgreesFrom s' p) {c : Option Content} (hp : s.at? p = c) :
    s'.at? p = c :=
  (h.at?_eq p .refl).symm.trans hp

/-- On sheets that agree from a place on, the place has one result. -/
theorem naive_eq (h : s.AgreesFrom s' p) (stack : List Position) :
    s.naive stack p = s'.naive stack p := by
  fun_induction naive s stack p with
  | case1 stack p hp => rw [naive_of_outside (h.at?_self hp), h.rows_eq, h.cols_eq]
  | case2 stack p hp => rw [naive_of_empty (h.at?_self hp)]
  | case3 stack p value hp => rw [naive_of_number (h.at?_self hp)]
  | case4 stack p content hp => rw [naive_of_text (h.at?_self hp)]
  | case5 stack p tree hp hmem => rw [naive_of_mem (h.at?_self hp) hmem]
  | case6 stack p tree hp hmem ih =>
      rw [naive_of_not_mem (h.at?_self hp) hmem]
      exact Tree.sumWith_congr fun q hq => ih q (h.reference ⟨tree, hp, hq⟩)

end AgreesFrom

end Sheet

/-! ### Tables -/

section Tables

variable {source source' : List Char} {before before' store store' : Store} {t t' : Table}
  {p : Position}

/-- Two tables of one shape that were just read, and that say the same wherever the references of a
cell lead, give the cell one result. -/
theorem evaluateCell_noninterference (hread : Table.read source before = (.ok t, store))
    (hread' : Table.read source' before' = (.ok t', store')) (hstore : store.size < 2 ^ 32)
    (hstore' : store'.size < 2 ^ 32)
    (hrows : t.rows = t'.rows) (hcols : t.cols = t'.cols)
    (hsame : ∀ q, ReflTransGen (t.sheet store).References p q →
      (t.sheet store).at? q = (t'.sheet store').at? q) :
    (({} : Evaluator).evaluateCell store t p).1 =
      (({} : Evaluator).evaluateCell store' t' p).1 := by
  have hreads := Table.readsAs_of_size_le hread (Nat.le_of_lt hstore)
  have hreads' := Table.readsAs_of_size_le hread' (Nat.le_of_lt hstore')
  have hagrees : (t.sheet store).AgreesFrom (t'.sheet store') p := ⟨hrows, hcols, hsame⟩
  rw [hreads.clean.evaluateCell_eq hreads.atRest, hreads'.clean.evaluateCell_eq hreads'.atRest,
    hagrees.naive_eq]

/-- The text in the first cell becomes a formula, whose nodes come before those of the second
one. -/
theorem evaluateCell_noninterference_of_text :
    ∃ t store t' store', Table.read "x|=C0+1|5".toList .empty = (.ok t, store) ∧
      Table.read "=7+A0|=C0+1|5".toList .empty = (.ok t', store') ∧
      store.size < 2 ^ 32 ∧ store'.size < 2 ^ 32 ∧ t.get? ⟨0, 1⟩ ≠ t'.get? ⟨0, 1⟩ ∧
      (({} : Evaluator).evaluateCell store t ⟨0, 1⟩).1 =
        (({} : Evaluator).evaluateCell store' t' ⟨0, 1⟩).1 := by
  let ps : List Position := [⟨0, 1⟩, ⟨0, 2⟩]
  let contents : List (Option Content) :=
    [some (.formula (.plus (.ref ⟨0, 2⟩) (.number 1))), some (.number 5)]
  let cell (t : Table) : Option Cell := t.get? ⟨0, 1⟩
  have hcheck : Table.readsTo "x|=C0+1|5".toList (fun t store => decide (
      store.size < 2 ^ 32 ∧ t.rows = 1 ∧ t.cols = 3 ∧ ps.map (t.sheet store).at? = contents ∧
        (∀ p ∈ ps, ∀ q ∈ (t.sheet store).referred p, q ∈ ps) ∧
        cell t = some (.formula { root := .ofIndex 2 }))) = true := by decide +kernel
  have hcheck' : Table.readsTo "=7+A0|=C0+1|5".toList (fun t store => decide (
      store.size < 2 ^ 32 ∧ t.rows = 1 ∧ t.cols = 3 ∧ ps.map (t.sheet store).at? = contents ∧
        cell t = some (.formula { root := .ofIndex 5 }))) = true := by decide +kernel
  obtain ⟨t, store, hread, hcheck⟩ := Table.exists_of_readsTo hcheck
  obtain ⟨t', store', hread', hcheck'⟩ := Table.exists_of_readsTo hcheck'
  obtain ⟨hstore, hrows, hcols, hat, hclosed, hcell⟩ := of_decide_eq_true hcheck
  obtain ⟨hstore', hrows', hcols', hat', hcell'⟩ := of_decide_eq_true hcheck'
  refine ⟨t, store, t', store', hread, hread', hstore, hstore', ?_, ?_⟩
  · show cell t ≠ cell t'
    rw [hcell, hcell']
    decide
  · refine evaluateCell_noninterference hread hread' hstore hstore' (by rw [hrows, hrows'])
      (by rw [hcols, hcols']) fun q hq => ?_
    have hmem := Sheet.mem_of_reaches hclosed (by decide) hq
    exact List.map_inj_left.1 (hat.trans hat'.symm) q hmem

end Tables

end PipeSheet
