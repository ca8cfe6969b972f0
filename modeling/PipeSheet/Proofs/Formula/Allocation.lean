import PipeSheet.Proofs.Formula.Block
import PipeSheet.Proofs.Formula.Language
import PipeSheet.Proofs.Safety.Reading
/-!
# PipeSheet.Proofs.Formula.Allocation

**Where the nodes of a formula are.**

Reading changes no node that was there before. A formula that reads adds its operands, in the order
of the text, and then its sums from the innermost one outwards, so the root is the last node. Every
sum is pushed on the way back from the last operand: a formula that fails has not come that far, and
leaves its operands only.

`read_eq_append` says all this of the operands that `scan` finds; here they are those that the
lexemes of the text write, and every index is a number of 32 bits.

* `Store.HoldsOperands`, `Store.HoldsSum`: the nodes from an index on;
* `read_allocates`: the law.
-/

namespace PipeSheet.Formula

open Text (byteLength)

/-! ### Nodes from an index on -/

namespace Store

/-- From an index on the nodes are those of some operands, in their order. -/
def HoldsOperands (s : Store) (first : Nat) (operands : List Operand) : Prop :=
  ∀ i operand, operands[i]? = some operand → s.nodes[first + i]? = some operand.node

/-- From an index on the nodes are those of some operands, and behind them the sums over them. The
first sum is over the last two operands, and each further one over the next operand to the left and
the sum before it. -/
structure HoldsSum (s : Store) (first : Nat) (operands : List Operand) : Prop where
  operand : s.HoldsOperands first operands
  sum : ∀ j < operands.length - 1, ∃ lhs rhs,
    s.nodes[first + operands.length + j]? = some (.plus lhs rhs) ∧
    lhs.index = first + operands.length - 2 - j ∧ rhs.index = first + operands.length - 1 + j

variable {s : Store} {operands : List Operand}

theorem holdsOperands_append (s : Store) (operands : List Operand) :
    (s.append (operands.map Operand.node)).HoldsOperands s.size operands := by
  intro i o ho
  rw [getElem?_append_right, List.getElem?_map, ho]
  rfl

/-- A block holds the sum of its operands, if there are ids for all of its nodes. -/
theorem holdsSum_append_block (hsize : s.size + (block s.size operands).length ≤ 2 ^ 32) :
    (s.append (block s.size operands)).HoldsSum s.size operands := by
  rw [length_block] at hsize
  refine ⟨fun i o ho => ?_, fun j hj => ?_⟩
  · have hi : i < operands.length := (List.getElem?_eq_some_iff.1 ho).1
    rw [getElem?_append_right, getElem?_block_of_lt hi, ho]
    rfl
  · rw [Nat.add_assoc, getElem?_append_right, getElem?_block_sum hj]
    exact ⟨_, _, rfl, NodeId.index_ofIndex (by omega), NodeId.index_ofIndex (by omega)⟩

end Store

/-! ### Reading -/

section Read

variable {source : List Char} {store after : Store} {root : NodeId} {e : FormulaError}

/-- A formula that reads begins with a sum, and the sum stands behind the nodes that were there. -/
theorem holdsSum_of_read (h : read source store = (.ok root, after))
    (hroom : store.size + source.length ≤ 2 ^ 32) :
    ∃ operands front last, operands = front ++ [last] ∧ IsSum (lexemes source) front last ∧
      after.HoldsSum store.size operands ∧
      after.size = store.size + (2 * operands.length - 1) ∧
      root.index = store.size + (2 * operands.length - 2) := by
  have hgrown := size_read_le source store
  obtain ⟨operands, hoperands, hne, rfl, rfl⟩ := exists_block_of_read h
  obtain ⟨front, last, hfound, hsum⟩ :=
    isSum_of_scan (fun _ => proper_of_mem_lexemes) (congrArg Prod.snd hoperands)
  have hpos := List.length_pos_iff.2 hne
  have hblock := length_block store.size operands
  rw [h, Store.size_append] at hgrown
  refine ⟨operands, front, last, (congrArg Prod.fst hoperands).symm.trans hfound, hsum,
    Store.holdsSum_append_block (by omega), ?_, ?_⟩
  · rw [Store.size_append]
    omega
  · rw [NodeId.index_ofIndex (by omega)]
    omega

/-- A formula that fails leaves the operands that were taken before. -/
theorem exists_operands_of_read (h : read source store = (.error e, after)) :
    ∃ operands,
      FailsAfter (.ofRange (byteLength source) (byteLength source)) (lexemes source) operands e ∧
      after = store.append (operands.map Operand.node) := by
  rw [read_eq_append] at h
  cases hfound : operandsOf source with
  | mk operands failure =>
      rw [hfound] at h
      cases failure with
      | none => cases h
      | some e' =>
          cases h
          have hafter : FailsAfter _ (lexemes source) (operandsOf source).1 e :=
            failsAfter_of_scan (fun _ => proper_of_mem_lexemes) (congrArg Prod.snd hfound)
          rw [hfound] at hafter
          exact ⟨operands, hafter, rfl⟩

/-- The operands that a formula leaves stand where the store ended. -/
theorem holdsOperands_of_read (h : read source store = (.error e, after)) :
    ∃ operands,
      FailsAfter (.ofRange (byteLength source) (byteLength source)) (lexemes source) operands e ∧
      after.HoldsOperands store.size operands ∧ after.size = store.size + operands.length := by
  obtain ⟨operands, hfails, rfl⟩ := exists_operands_of_read h
  exact ⟨operands, hfails, Store.holdsOperands_append store operands,
    by rw [Store.size_append, List.length_map]⟩

/-- While there are ids left, reading a formula stays in its domain and changes no node that was
there. If it succeeds, the text begins with a sum, and behind the nodes that were there stand its
operands and its sums, of which the last one is the root. If it fails, there are the operands that
were taken before the failure, and no sums. -/
theorem read_allocates (hroom : store.size + byteLength source < 2 ^ 32 - 1) :
    Checked.read source store = .ok (read source store) ∧
    (∀ i < store.size, (read source store).2.nodes[i]? = store.nodes[i]?) ∧
    match read source store with
    | (.ok root, after) => ∃ operands front last, operands = front ++ [last] ∧
        IsSum (lexemes source) front last ∧ after.HoldsSum store.size operands ∧
        after.size = store.size + (2 * operands.length - 1) ∧
        root.index = store.size + (2 * operands.length - 2)
    | (.error e, after) => ∃ operands,
        FailsAfter (.ofRange (byteLength source) (byteLength source)) (lexemes source) operands e ∧
        after.HoldsOperands store.size operands ∧ after.size = store.size + operands.length := by
  have hlength := Text.length_le_byteLength source
  have hgrown := size_read_le source store
  refine ⟨Checked.read_eq (by omega), fun i hi => ?_, ?_⟩
  · have hold : store.nodes[i]? = some store.nodes[i] := Array.getElem?_eq_getElem hi
    rw [(extends_read source store).getElem?_eq hold, hold]
  · split
    · next root after hread => exact holdsSum_of_read hread (by omega)
    · next e after hread => exact holdsOperands_of_read hread

/-- A formula behind another node, and a word behind the formula. -/
theorem read_allocates_of_three :
    let store := (Store.empty.push (.number 9)).2
    store.size + byteLength "A0+7+B1 x".toList < 2 ^ 32 - 1 ∧
    ∃ root after, read "A0+7+B1 x".toList store = (.ok root, after) ∧ root.index = 5 ∧
      after.HoldsSum 1 [.ref ⟨0, 0⟩, .number 7, .ref ⟨1, 1⟩] := by
  intro store
  have hroom : store.size + byteLength "A0+7+B1 x".toList < 2 ^ 32 - 1 := by decide +kernel
  obtain ⟨_, _, hread⟩ := read_allocates hroom
  have hfound : operandsOf "A0+7+B1 x".toList =
      ([.ref ⟨0, 0⟩, .number 7, .ref ⟨1, 1⟩], none) := by decide +kernel
  cases hcall : read "A0+7+B1 x".toList store with
  | mk result after =>
      rw [hcall] at hread
      cases result with
      | error e =>
          rw [read_eq_append, hfound] at hcall
          cases hcall
      | ok root =>
          obtain ⟨operands, front, last, rfl, hsum, hholds, _, hroot⟩ := hread
          have hsame : operandsOf "A0+7+B1 x".toList = (front ++ [last], none) :=
            scan_of_isSum (fun _ => proper_of_mem_lexemes) hsum
          have hoperands : [.ref ⟨0, 0⟩, .number 7, .ref ⟨1, 1⟩] = front ++ [last] :=
            congrArg Prod.fst (hfound.symm.trans hsame)
          rw [← hoperands] at hholds hroot
          exact ⟨hroom, root, after, rfl, hroot, hholds⟩

end Read

end PipeSheet.Formula
