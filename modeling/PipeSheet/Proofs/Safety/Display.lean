import PipeSheet.Proofs.Formula.Display
import PipeSheet.Proofs.Safety.Reading
/-!
# PipeSheet.Proofs.Safety.Display

**A formula that a machine reads is read again from the text that it shows.**

A machine that ends has read what the program reads, and every node that it has added has an id
(`Checked.read_of_ok`). So the tree under the root is the sum of the operands of the source, the
text of the root is the text of that sum, and reading this text without its parentheses takes the
same steps as reading the source, at the end of any store.

* `Checked.push_bind_of_ok`, `Checked.addSums_of_ok`, `Checked.readSum_of_ok`: the parts of a
  reading that ends;
* `Checked.exists_panic_of_read`: a reading that needs more nodes than there are ids does not end;
* `reads_display`: the law.
-/

namespace PipeSheet

open Formula (FormulaError Lexeme Node NodeId Operand Store withoutParens)

/-! ### Readings that end -/

namespace Checked

variable {store : Store}

theorem bind_eq_ok_iff {ε α β : Type} {x : Except ε α} {f : α → Except ε β} {b : β} :
    (x >>= f) = .ok b ↔ ∃ a, x = .ok a ∧ f a = .ok b := by
  cases x with
  | error e => simp [bind, Except.bind]
  | ok a => simp [bind, Except.bind]

/-- A node is added only where there is an id for it. -/
theorem push_bind_of_ok {α : Type} {node : Node} {f : NodeId × Store → Except Panic α} {a : α}
    (h : (push store node >>= f) = .ok a) :
    f (store.push node) = .ok a ∧ (store.push node).2.size < 2 ^ 32 := by
  obtain ⟨pushed, hpush, hrest⟩ := bind_eq_ok_iff.1 h
  unfold push at hpush
  split at hpush
  · next hroom =>
    split at hpush
    · cases hpush
    · cases hpush
      have hsize : store.size < 2 ^ 32 - 1 := hroom
      refine ⟨hrest, ?_⟩
      rw [Formula.Store.size_push]
      omega
  · cases hpush

theorem addSums_of_ok {last : NodeId} {pending : List NodeId} {r : NodeId × Store}
    (h : addSums last pending store = .ok r) (hsize : store.size < 2 ^ 32) :
    Formula.addSums last pending store = r ∧ r.2.size < 2 ^ 32 := by
  induction pending generalizing last store with
  | nil =>
      cases h
      exact ⟨rfl, hsize⟩
  | cons lhs pending ih =>
      obtain ⟨hrest, hroom⟩ := push_bind_of_ok h
      exact ih hrest hroom

/-- The last operand and the sums. -/
theorem addSums_push_of_ok {pending : List NodeId} {node : Node} {store' : Store}
    {result : Except FormulaError NodeId}
    (h : (push store node >>= fun pushed => addSums pushed.1 pending pushed.2 >>= fun summed =>
      .ok ((.ok summed.1 : Except FormulaError NodeId), summed.2)) = .ok (result, store')) :
    ∃ root, result = .ok root ∧ store'.size < 2 ^ 32 ∧
      Formula.addSums (store.push node).1 pending (store.push node).2 = (root, store') := by
  obtain ⟨hrest, hroom⟩ := push_bind_of_ok h
  obtain ⟨summed, hsummed, hend⟩ := bind_eq_ok_iff.1 hrest
  cases hend
  obtain ⟨hsum, hsize⟩ := addSums_of_ok hsummed hroom
  exact ⟨summed.1, rfl, hsize, hsum⟩

/-- A formula that is read adds at least one node, so every node has an id. -/
theorem readSum_of_ok {stop : Span} {pending : List NodeId} {lexemes : List Lexeme}
    {result : Except FormulaError NodeId} {store' : Store}
    (h : readSum stop pending lexemes store = .ok (result, store')) :
    Formula.readSum stop pending lexemes store = (result, store') ∧
      ∀ root, result = .ok root → store'.size < 2 ^ 32 := by
  fun_induction Formula.readSum stop pending lexemes store with
  | case1 | case2 =>
      cases h
      exact ⟨rfl, fun root hroot => by cases hroot⟩
  | case3 pending t rest store hnone =>
      rw [readSum, hnone] at h
      cases h
      exact ⟨rfl, fun root hroot => by cases hroot⟩
  | case4 pending t store operand hsome id store₁ hpushed u rest =>
      rw [readSum, hsome] at h
      have hrest := (push_bind_of_ok h).1
      rw [hpushed] at hrest
      cases hrest
      exact ⟨rfl, fun root hroot => by cases hroot⟩
  | case5 pending t store operand hsome id store₁ hpushed text span rest ih =>
      rw [readSum, hsome] at h
      have hrest := (push_bind_of_ok h).1
      rw [hpushed] at hrest
      exact ih hrest
  | case6 pending t store operand hsome id store₁ hpushed text span rest sum store₂ hadded =>
      rw [readSum, hsome] at h
      obtain ⟨root, rfl, hroom, hsum⟩ := addSums_push_of_ok h
      rw [hpushed, hadded] at hsum
      cases hsum
      exact ⟨rfl, fun _ _ => hroom⟩
  | case7 pending t store operand hsome id store₁ hpushed sum store₂ hadded =>
      rw [readSum, hsome] at h
      obtain ⟨root, rfl, hroom, hsum⟩ := addSums_push_of_ok h
      rw [hpushed, hadded] at hsum
      cases hsum
      exact ⟨rfl, fun _ _ => hroom⟩

/-- A machine that ends has read what the program reads, and every node has an id. -/
theorem read_of_ok {source : List Char} {root : NodeId} {store' : Store}
    (h : read source store = .ok (.ok root, store')) :
    Formula.read source store = (.ok root, store') ∧ store'.size < 2 ^ 32 := by
  obtain ⟨hread, hroom⟩ := readSum_of_ok h
  exact ⟨hread, hroom root rfl⟩

end Checked

/-! ### Reading a text again -/

/-- A formula has a text, and this text without its parentheses reads as the same formula: from the
store that the source was read into, to the same nodes and the same root, and in every store as the
source does. -/
theorem reads_display {source : List Char} {root : NodeId} {start store : Store}
    (h : Checked.read source start = .ok (.ok root, store)) :
    ∃ text, store.render? root = some text ∧
      Checked.read (withoutParens text) start = .ok (.ok root, store) ∧
      ∀ other, Formula.read (withoutParens text) other = Formula.read source other := by
  obtain ⟨hread, hsize⟩ := Checked.read_of_ok h
  have hreads := Formula.read_spec hread (Nat.le_of_lt hsize)
  have hsame := Formula.read_withoutParens hreads.complete
  refine ⟨_, congrArg (Option.map Formula.Tree.render) hreads.tree?_eq, ?_, hsame⟩
  have hback := (hsame start).trans hread
  rw [Checked.read_eq (by rwa [hback]), hback]

/-- Zeros in front, an exponent, a number beyond all doubles, and more behind the last operand. -/
theorem reads_display_of_spelling :
    let source := "007+1e2 + B03 + 9e400 nan $".toList
    let infinity := Number.ofPattern false Number.infinityPattern
    let store : Store := ⟨#[.number 7, .number 100, .ref ⟨3, 1⟩, .number infinity,
      .plus (.ofIndex 2) (.ofIndex 3), .plus (.ofIndex 1) (.ofIndex 4),
      .plus (.ofIndex 0) (.ofIndex 5)]⟩
    Checked.read source .empty = .ok (.ok (.ofIndex 6), store) ∧
      store.render? (.ofIndex 6) = some "(7 + (100 + (B3 + inf)))".toList ∧
      Checked.read "7 + 100 + B3 + inf".toList .empty = .ok (.ok (.ofIndex 6), store) := by
  intro source infinity store
  have hread : Checked.read source .empty = .ok (.ok (.ofIndex 6), store) := by decide +kernel
  have htree := (Formula.read_spec (Checked.read_of_ok hread).1 (by decide)).tree?_eq
  have hrender : store.render? (.ofIndex 6) = some "(7 + (100 + (B3 + inf)))".toList := by
    rw [Store.render?, htree]
    decide +kernel
  obtain ⟨text, htext, hback, _⟩ := reads_display hread
  obtain rfl := Option.some.inj (htext.symm.trans hrender)
  exact ⟨hread, hrender, hback⟩

end PipeSheet
