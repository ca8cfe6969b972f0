import Mathlib.Logic.Relation
import PipeSheet.Formula.Reader
import PipeSheet.Formula.Tree
import PipeSheet.Grid
/-!
# PipeSheet.Proofs.Sheet.Basic

**A sheet is what a table says, whatever has been evaluated of it.**

A table keeps ids, statuses and values of its formulas. Evaluation changes the last two and the
first depends on what else is in the store, but what a formula *says* is its tree. A `Sheet` keeps
only that, so it is the same for every state of a table, and everything that evaluation should mean
is said of it:

* `Sheet`, `Table.sheet`: the contents of the places;
* `Sheet.References`: which place a formula asks for;
* `Sheet.HasValue`: the values of places and formulas, as the least relation that is closed under
  the rules of summing up. A place on a cycle, a text and a place outside have none.
-/

namespace PipeSheet

open Formula (Operand Store Tree)
open Relation (ReflTransGen TransGen)

/-! ### Operands -/

/-- The formula that consists of one operand. -/
def Formula.Operand.tree : Operand → Tree
  | .number value => .number value
  | .ref target => .ref target

namespace Formula.Tree

/-- The operands that a formula consists of, from left to right. -/
def operands : Tree → List Operand
  | number value => [.number value]
  | ref target => [.ref target]
  | plus lhs rhs => lhs.operands ++ rhs.operands

/-- The sum of some operands, grouped to the right. It takes at least one operand. -/
def sum : List Operand → Tree
  | [] => .number 0
  | [operand] => operand.tree
  | operand :: rest => .plus operand.tree (sum rest)

theorem sum_cons (operand : Operand) {rest : List Operand} (h : rest ≠ []) :
    sum (operand :: rest) = .plus operand.tree (sum rest) := by
  cases rest with
  | nil => exact absurd rfl h
  | cons next rest => rfl

@[simp] theorem operands_tree (operand : Operand) : operand.tree.operands = [operand] := by
  cases operand <;> rfl

/-- A sum consists of the operands that it was made of. -/
theorem operands_sum {operands : List Operand} (h : operands ≠ []) :
    (sum operands).operands = operands := by
  induction operands with
  | nil => exact absurd rfl h
  | cons operand rest ih =>
      cases rest with
      | nil => exact operands_tree operand
      | cons next rest =>
          rw [sum_cons operand (by simp), Tree.operands, operands_tree, ih (by simp)]
          rfl

end Formula.Tree

/-! ### Sheets -/

/-- What one place says. -/
inductive Content where
  | empty
  | text (content : List Char)
  | number (value : Float)
  | formula (tree : Tree)
  deriving DecidableEq

/-- The contents of a rectangle of places. -/
structure Sheet where
  rows : Nat
  cols : Nat
  /-- The content of a place; there is none outside the rectangle. -/
  at? : Position → Option Content
  inside_of_at? : ∀ {p : Position} {c : Content}, at? p = some c → p.row < rows ∧ p.col < cols

/-- What a cell says. A formula whose root is not in the store says nothing; it is given the tree
`0` here, and no table that was read from a source has one. -/
def Cell.content (store : Store) : Cell → Content
  | .empty => .empty
  | .text _ content => .text content
  | .number value => .number value
  | .formula f => .formula ((store.tree? f.root).getD (.number 0))

theorem Table.contains_of_get? {t : Table} {p : Position} {c : Cell} (h : t.get? p = some c) :
    t.Contains p := by
  by_cases hp : t.Contains p
  · exact hp
  · rw [get?_of_not_contains hp] at h
    cases h

theorem Table.exists_get?_of_contains {t : Table} {p : Position} (h : t.Contains p) :
    ∃ c, t.get? p = some c :=
  ⟨_, (get?_of_contains h).trans (Array.getElem?_eq_getElem (index_lt h))⟩

/-- A position without a formula, outside the table too, is passed over. -/
theorem Table.isFormula_getD_get? {t : Table} {p : Position}
    (h : ∀ f, t.get? p ≠ some (.formula f)) : ((t.get? p).getD .empty).isFormula = false := by
  cases hcell : t.get? p with
  | none => rfl
  | some cell =>
      cases cell with
      | formula f => exact absurd hcell (h f)
      | _ => rfl

/-- What a table says. -/
def Table.sheet (store : Store) (t : Table) : Sheet where
  rows := t.rows
  cols := t.cols
  at? p := (t.get? p).map (Cell.content store)
  inside_of_at? {p c} h := by
    obtain ⟨cell, hp, _⟩ := Option.map_eq_some_iff.1 h
    exact contains_of_get? hp

/-- Every formula of a table has its tree in the store. -/
def Table.Rooted (store : Store) (t : Table) : Prop :=
  ∀ {p : Position} {f : FormulaCell}, t.get? p = some (.formula f) →
    ∃ tree, store.tree? f.root = some tree

theorem Table.at?_sheet (store : Store) (t : Table) (p : Position) :
    (t.sheet store).at? p = (t.get? p).map (Cell.content store) := rfl

/-- A formula cell says its tree. -/
theorem Table.at?_sheet_of_formula {store : Store} {t : Table} {p : Position} {f : FormulaCell}
    {tree : Tree} (h : t.get? p = some (.formula f)) (htree : store.tree? f.root = some tree) :
    (t.sheet store).at? p = some (.formula tree) := by
  rw [at?_sheet, h]
  simp [Cell.content, htree]

namespace Sheet

variable {s : Sheet}

@[ext] theorem ext {s s' : Sheet} (hrows : s.rows = s'.rows) (hcols : s.cols = s'.cols)
    (hat : ∀ p, s.at? p = s'.at? p) : s = s' := by
  obtain ⟨rows, cols, at?, _⟩ := s
  obtain ⟨rows', cols', at?', _⟩ := s'
  obtain rfl : at? = at?' := funext hat
  obtain rfl : rows = rows' := hrows
  obtain rfl : cols = cols' := hcols
  rfl

/-- A formula refers to a place when one of its operands is a reference to it. -/
def References (s : Sheet) (p q : Position) : Prop :=
  ∃ tree, s.at? p = some (.formula tree) ∧ .ref q ∈ tree.operands

/-- There is a formula at a place. -/
def IsFormula (s : Sheet) (p : Position) : Prop :=
  ∃ tree, s.at? p = some (.formula tree)

/-! ### Values -/

/-- What can have a value: a place or a formula. -/
inductive Subject where
  | place (p : Position)
  | tree (tree : Tree)

/-- The value of a subject. An empty place counts as zero, a formula has the value of its sum, and a
sum has a value once both its sides have one. -/
inductive HasValue (s : Sheet) : Subject → Float → Prop
  | empty {p : Position} : s.at? p = some .empty → HasValue s (.place p) 0
  | number {p : Position} {v : Float} : s.at? p = some (.number v) → HasValue s (.place p) v
  | formula {p : Position} {tree : Tree} {v : Float} : s.at? p = some (.formula tree) →
      HasValue s (.tree tree) v → HasValue s (.place p) v
  | literal {v : Float} : HasValue s (.tree (.number v)) v
  | reference {q : Position} {v : Float} : HasValue s (.place q) v → HasValue s (.tree (.ref q)) v
  | plus {lhs rhs : Tree} {a b : Float} : HasValue s (.tree lhs) a → HasValue s (.tree rhs) b →
      HasValue s (.tree (.plus lhs rhs)) (a + b)

/-- A subject has one value at most. -/
theorem HasValue.unique {x : Subject} {v w : Float} (hv : s.HasValue x v) (hw : s.HasValue x w) :
    v = w := by
  induction hv generalizing w with
  | empty h =>
      cases hw with
      | empty => rfl
      | number h' => simp [h] at h'
      | formula h' => simp [h] at h'
  | number h =>
      cases hw with
      | empty h' => simp [h] at h'
      | number h' => simpa [h] using h'
      | formula h' => simp [h] at h'
  | formula h _ ih =>
      cases hw with
      | empty h' => simp [h] at h'
      | number h' => simp [h] at h'
      | formula h' ht' =>
          obtain rfl : _ = _ := by simpa [h] using h'
          exact ih ht'
  | literal => cases hw; rfl
  | reference _ ih =>
      cases hw with
      | reference hq => exact ih hq
  | plus _ _ iha ihb =>
      cases hw with
      | plus ha hb => rw [iha ha, ihb hb]

/-- The value of a formula cell is the value of its tree. -/
theorem HasValue.tree_of_place {p : Position} {tree : Tree} {v : Float}
    (h : s.HasValue (.place p) v) (hp : s.at? p = some (.formula tree)) :
    s.HasValue (.tree tree) v := by
  cases h with
  | empty h' => simp [hp] at h'
  | number h' => simp [hp] at h'
  | formula h' ht =>
      obtain rfl : _ = _ := by simpa [hp] using h'
      exact ht

/-- What a tree with a value refers to has a value. -/
theorem HasValue.of_mem_operands {tree : Tree} {v : Float} (h : s.HasValue (.tree tree) v)
    {q : Position} (hq : .ref q ∈ tree.operands) : ∃ w, s.HasValue (.place q) w := by
  induction tree generalizing v with
  | number value => simp [Tree.operands] at hq
  | ref target =>
      cases h with
      | reference h =>
          obtain rfl : q = target := by simpa [Tree.operands] using hq
          exact ⟨v, h⟩
  | plus lhs rhs ihl ihr =>
      cases h with
      | plus ha hb =>
          rcases List.mem_append.1 hq with hq | hq
          · exact ihl ha hq
          · exact ihr hb hq

/-- A tree has a value when everything it refers to has one. -/
theorem exists_hasValue_tree {tree : Tree}
    (h : ∀ q, .ref q ∈ tree.operands → ∃ w, s.HasValue (.place q) w) :
    ∃ v, s.HasValue (.tree tree) v := by
  induction tree with
  | number value => exact ⟨value, .literal⟩
  | ref target =>
      obtain ⟨w, hw⟩ := h target (by simp [Tree.operands])
      exact ⟨w, .reference hw⟩
  | plus lhs rhs ihl ihr =>
      obtain ⟨a, ha⟩ := ihl fun q hq => h q (List.mem_append_left _ hq)
      obtain ⟨b, hb⟩ := ihr fun q hq => h q (List.mem_append_right _ hq)
      exact ⟨a + b, .plus ha hb⟩

/-- What a formula with a value refers to has a value. -/
theorem HasValue.of_references {p q : Position} {v : Float} (h : s.HasValue (.place p) v)
    (hpq : s.References p q) : ∃ w, s.HasValue (.place q) w := by
  obtain ⟨tree, hp, hq⟩ := hpq
  exact (h.tree_of_place hp).of_mem_operands hq

theorem not_hasValue_of_text {p : Position} {content : List Char}
    (h : s.at? p = some (.text content)) (v : Float) : ¬ s.HasValue (.place p) v := by
  intro hv
  cases hv <;> simp_all

theorem not_hasValue_of_outside {p : Position} (h : s.at? p = none) (v : Float) :
    ¬ s.HasValue (.place p) v := by
  intro hv
  cases hv <;> simp_all

/-! ### Cycles -/

/-- The derivation of a value ends, so no infinite chain of references begins at a place with a
value. -/
theorem HasValue.acc {p : Position} {v : Float} (h : s.HasValue (.place p) v) :
    Acc (fun q p => s.References p q) p := by
  -- A tree refers to places below it only; that is what the induction carries for trees.
  suffices key : ∀ {x : Subject} {v : Float}, s.HasValue x v →
      match x with
      | .place p => Acc (fun q p => s.References p q) p
      | .tree tree => ∀ q, .ref q ∈ tree.operands → Acc (fun q p => s.References p q) q from key h
  intro x v h
  induction h with
  | empty h => exact ⟨_, fun q ⟨tree, ht, _⟩ => by simp [h] at ht⟩
  | number h => exact ⟨_, fun q ⟨tree, ht, _⟩ => by simp [h] at ht⟩
  | formula h _ ih =>
      refine ⟨_, fun q ⟨tree, ht, hq⟩ => ?_⟩
      obtain rfl : _ = tree := by simpa [h] using ht
      exact ih q hq
  | literal => intro q hq; simp [Tree.operands] at hq
  | reference _ ih =>
      intro q hq
      obtain rfl : q = _ := by simpa [Tree.operands] using hq
      exact ih
  | plus _ _ iha ihb =>
      intro q hq
      rcases List.mem_append.1 hq with hq | hq
      · exact iha q hq
      · exact ihb q hq

/-- A place with a value does not lead back to itself. -/
theorem HasValue.not_cyclic {p : Position} {v : Float} (h : s.HasValue (.place p) v) :
    ¬ TransGen s.References p p := by
  intro hcycle
  have hacc := h.acc.transGen
  clear h
  induction hacc with
  | intro p _ ih => exact ih p (Relation.transGen_swap.2 hcycle) hcycle

end Sheet

end PipeSheet
