import PipeSheet.Proofs.Formula.Records
import PipeSheet.Proofs.Safety.Extract
import PipeSheet.Proofs.Table.Block
/-!
# PipeSheet.Proofs.Safety.Stores

**Whatever is done with a store, children stand first in it.**

A store grows node by node, or by a formula or a table that is read into it, and a formula or table
that fails leaves behind what was read of it. It may also be replaced: by the copy of one of its
formulas, or by what some bytes say. Each of the five keeps children first, for its own reason
(`childrenFirst_step`), and then so does any sequence of them. Hence every id that is in range can
be written, copied and dumped.

Ids that were handed out go on denoting the same node until the store is replaced.

* `Store.Action`, `Store.step`: what is done with a store, and the ids that it hands out;
* `Store.Legal`: an action whose ids exist, and after which there are ids left;
* `Store.childrenFirst_after_actions`: the law.
-/

namespace PipeSheet

open Formula (Node NodeId)

/-- The roots of the formulas of a table, row by row. -/
def Table.roots (t : Table) : List NodeId :=
  t.cells.toList.filterMap fun
    | .formula f => some f.root
    | _ => none

namespace Formula.Store

/-- What is done with a store. -/
inductive Action where
  | push (node : Node)
  | read (source : List Char)
  | readTable (source : List Char)
  /-- The copy of a formula takes the place of the store. -/
  | extract (root : NodeId)
  /-- What bytes say takes the place of the store. -/
  | load (bytes : List UInt8)

/-- Whether another store takes the place of the one before. -/
def Action.replaces : Action → Bool
  | .extract _ | .load _ => true
  | .push _ | .read _ | .readTable _ => false

/-- The ids that an action hands out, and the store after it. -/
def step (s : Store) : Action → List NodeId × Store
  | .push node => ([(s.push node).1], (s.push node).2)
  | .read source =>
    match Formula.read source s with
    | (.ok root, s) => ([root], s)
    | (.error _, s) => ([], s)
  | .readTable source =>
    match Table.read source s with
    | (.ok t, s) => (t.roots, s)
    | (.error _, s) => ([], s)
  | .extract root =>
    match s.extract? root with
    | some (out, r) => ([r], out)
    | none => ([], s)
  | .load bytes =>
    match Store.load bytes with
    | .ok (loaded, r) => ([r], loaded)
    | .error _ => ([], s)

/-- The children of a pushed node and the root of a copy exist, and only what bytes say replaces a
store. -/
def Action.Possible (s : Store) : Action → Prop
  | .push node => ∀ child ∈ node.children, child.index < s.size
  | .read _ | .readTable _ => True
  | .extract root => root.index < s.size
  | .load bytes => (Store.load bytes).isOk = true

/-- An action that names what exists, and after which some id is not used. -/
def Legal (s : Store) (a : Action) : Prop :=
  a.Possible s ∧ (s.step a).2.size < NodeId.invalid.index

/-- The store after some actions. -/
def run (s : Store) (actions : List Action) : Store :=
  actions.foldl (fun s a => (s.step a).2) s

/-- Each action is legal when its turn comes. -/
def LegalRun (s : Store) : List Action → Prop
  | [] => True
  | a :: rest => s.Legal a ∧ (s.step a).2.LegalRun rest

instance (s : Store) (a : Action) : Decidable (a.Possible s) :=
  match a with
  | .push node => inferInstanceAs (Decidable (∀ child ∈ node.children, _))
  | .read _ | .readTable _ => inferInstanceAs (Decidable True)
  | .extract _ => inferInstanceAs (Decidable (_ < _))
  | .load _ => inferInstanceAs (Decidable (_ = true))

instance (s : Store) (a : Action) : Decidable (s.Legal a) :=
  inferInstanceAs (Decidable (_ ∧ _))

instance decidableLegalRun : (s : Store) → (actions : List Action) → Decidable (s.LegalRun actions)
  | _, [] => inferInstanceAs (Decidable True)
  | s, a :: rest =>
    have := decidableLegalRun (s.step a).2 rest
    inferInstanceAs (Decidable (_ ∧ _))

/-! ### One action -/

variable {s : Store} {a : Action} {id : NodeId} {node : Node}

theorem Legal.size_lt (h : s.Legal a) : (s.step a).2.size < 2 ^ 32 :=
  Nat.lt_trans h.2 (by decide)

theorem snd_step_read (s : Store) (source : List Char) :
    (s.step (.read source)).2 = (Formula.read source s).2 := by
  unfold step
  dsimp only
  split
  · next h => rw [h]
  · next h => rw [h]

theorem snd_step_readTable (s : Store) (source : List Char) :
    (s.step (.readTable source)).2 = (Table.read source s).2 := by
  unfold step
  dsimp only
  split
  · next h => rw [h]
  · next h => rw [h]

/-- Every action keeps children first. -/
theorem childrenFirst_step (hs : s.ChildrenFirst) (h : s.Legal a) : (s.step a).2.ChildrenFirst := by
  have hsize := Nat.le_of_lt h.size_lt
  cases a with
  | push node => exact hs.push h.1
  | read source =>
      rw [snd_step_read] at hsize ⊢
      exact childrenFirst_read hs hsize
  | readTable source =>
      rw [snd_step_readTable] at hsize ⊢
      exact childrenFirst_readTable hs hsize
  | extract root =>
      obtain ⟨out, r, hextract, hspec⟩ := exists_extract hs h.1
      rw [step, hextract]
      exact hspec.childrenFirst hs h.1
  | load bytes =>
      unfold step
      dsimp only
      split
      · next loaded r hload => exact (exists_dump_of_load hload).1
      · exact hs

/-- An id that is handed out is in range. -/
theorem index_lt_of_mem_step (hs : s.ChildrenFirst) (h : s.Legal a) (hid : id ∈ (s.step a).1) :
    id.index < (s.step a).2.size := by
  have hsize := h.size_lt
  cases a with
  | push node =>
      have hgrown : ((s.step (.push node)).2).size = s.size + 1 := size_push s node
      rw [List.mem_singleton.1 hid, fst_push, NodeId.index_ofIndex (by omega), hgrown]
      exact Nat.lt_succ_self _
  | read source =>
      unfold step at hid hsize ⊢
      dsimp only at hid hsize ⊢
      split at hid
      · next root store hread =>
        rw [hread] at hsize
        rw [List.mem_singleton.1 hid]
        exact Nat.lt_of_lt_of_eq (Nat.lt_succ_self _)
          (index_root_of_read hread (Nat.le_of_lt hsize))
      · cases hid
  | readTable source =>
      unfold step at hid hsize ⊢
      dsimp only at hid hsize ⊢
      split at hid
      · next t store hread =>
        rw [hread] at hsize
        obtain ⟨cell, hcell, hroot⟩ := List.mem_filterMap.1 hid
        split at hroot
        · next f =>
          cases hroot
          have hlaid := Table.laidOut_of_read hread (Nat.le_of_lt hsize)
          obtain ⟨tree, ids, hlayout, _⟩ := hlaid.exists_layout hcell
          exact hlayout.index_lt_size
        · cases hroot
      · cases hid
  | extract root =>
      obtain ⟨out, r, hextract, hspec⟩ := exists_extract hs h.1
      rw [step, hextract] at hid ⊢
      rw [List.mem_singleton.1 hid]
      exact Nat.lt_of_lt_of_eq (Nat.lt_succ_self _) (hspec.index_root hs h.1)
  | load bytes =>
      unfold step at hid ⊢
      dsimp only at hid ⊢
      split at hid
      · next loaded r hload =>
        rw [List.mem_singleton.1 hid]
        exact (exists_dump_of_load hload).2.1
      · cases hid

/-- An action that does not replace the store only adds to it. -/
theorem extends_step (s : Store) (h : a.replaces = false) : s.Extends (s.step a).2 := by
  cases a with
  | push node => exact .push s node
  | read source =>
      rw [snd_step_read]
      exact extends_read source s
  | readTable source =>
      rw [snd_step_readTable]
      exact extends_readTable source s
  | extract root => cases h
  | load bytes => cases h

/-! ### Any number of actions -/

variable {actions : List Action}

theorem run_append (s : Store) (before after : List Action) :
    s.run (before ++ after) = (s.run before).run after :=
  List.foldl_append

theorem legalRun_append {before after : List Action} (h : s.LegalRun (before ++ after)) :
    s.LegalRun before ∧ (s.run before).LegalRun after := by
  induction before generalizing s with
  | nil => exact ⟨trivial, h⟩
  | cons a before ih =>
      obtain ⟨hbefore, hafter⟩ := ih h.2
      exact ⟨⟨h.1, hbefore⟩, hafter⟩

theorem childrenFirst_run (hs : s.ChildrenFirst) (h : s.LegalRun actions) :
    (s.run actions).ChildrenFirst := by
  induction actions generalizing s with
  | nil => exact hs
  | cons a rest ih => exact ih (childrenFirst_step hs h.1) h.2

theorem size_run_lt (hs : s.size < 2 ^ 32) (h : s.LegalRun actions) :
    (s.run actions).size < 2 ^ 32 := by
  induction actions generalizing s with
  | nil => exact hs
  | cons a rest ih => exact ih h.1.size_lt h.2

theorem extends_run (s : Store) (h : ∀ a ∈ actions, a.replaces = false) :
    s.Extends (s.run actions) := by
  induction actions generalizing s with
  | nil => exact .refl s
  | cons a rest ih =>
      have hrest := ih (s.step a).2 fun b hb => h b (List.mem_cons_of_mem _ hb)
      exact (extends_step s (h a List.mem_cons_self)).trans hrest

/-- Where children stand first, every id in range can be written, copied and dumped. -/
theorem walkable (hs : s.ChildrenFirst) (hsize : s.size < 2 ^ 32) (hid : id.index < s.size) :
    (∃ text, s.render? id = some text ∧ Displays s id (.ok text) ∧
      ∀ r, Displays s id r → r = .ok text) ∧
    (∃ out r, s.extract? id = some (out, r) ∧ Checked.extract s id = .ok (out, r)) ∧
    ∃ bytes, s.dump id = .ok bytes := by
  obtain ⟨tree, htree⟩ := Option.isSome_iff_exists.1 (hs.isSome_tree? hid)
  obtain ⟨out, r, hextract, hcopy⟩ := exists_extract hs hid
  have hroom : out.size < 2 ^ 32 := Nat.lt_of_le_of_lt (hcopy.size_le.trans hid) hsize
  obtain ⟨node, hnode⟩ : ∃ node, s.get? id = some node := exists_getElem? hid
  have hdisplays := displays_of_tree? htree
  refine ⟨⟨tree.render, ?_, hdisplays, fun r hr => hr.unique hdisplays⟩,
    ⟨out, r, hextract, Checked.extract_eq hs hid hcopy hroom⟩, ?_⟩
  · rw [render?, htree]
    rfl
  · rw [dump, hnode]
    exact ⟨_, rfl⟩

/-- After any legal actions on an empty store, children stand first; so every id in range can be
written, copied and dumped. Every id that was handed out denotes a node, and a pushed one the node
that was pushed; and it denotes this node until the store is replaced. -/
theorem childrenFirst_after_actions (h : empty.LegalRun actions) :
    (empty.run actions).ChildrenFirst ∧
    (∀ id : NodeId, id.index < (empty.run actions).size →
      (∃ text, (empty.run actions).render? id = some text ∧
        Displays (empty.run actions) id (.ok text) ∧
        ∀ r, Displays (empty.run actions) id r → r = .ok text) ∧
      (∃ out r, (empty.run actions).extract? id = some (out, r) ∧
        Checked.extract (empty.run actions) id = .ok (out, r)) ∧
      ∃ bytes, (empty.run actions).dump id = .ok bytes) ∧
    ∀ before a after, actions = before ++ a :: after →
      (∀ id ∈ ((empty.run before).step a).1, ∃ node,
        ((empty.run before).step a).2.get? id = some node ∧
        ∀ pushed, a = .push pushed → node = pushed) ∧
      ((∀ b ∈ after, b.replaces = false) → ∀ id node,
        ((empty.run before).step a).2.get? id = some node →
        (empty.run actions).get? id = some node) := by
  have hfirst := childrenFirst_run childrenFirst_empty h
  have hsize := size_run_lt (by decide) h
  refine ⟨hfirst, fun id hid => walkable hfirst hsize hid, ?_⟩
  intro before a after hactions
  rw [hactions] at h
  obtain ⟨hbefore, hlegal, _⟩ := legalRun_append h
  have hthen := childrenFirst_run childrenFirst_empty hbefore
  refine ⟨fun id hid => ?_, fun hafter id node hnode => ?_⟩
  · obtain ⟨node, hnode⟩ := exists_getElem? (index_lt_of_mem_step hthen hlegal hid)
    refine ⟨node, hnode, ?_⟩
    rintro pushed rfl
    have hroom : (empty.run before).size < 2 ^ 32 := size_run_lt (by decide) hbefore
    have hpushed := get?_push_self hroom pushed
    rw [← List.mem_singleton.1 hid] at hpushed
    exact Option.some.inj (hnode.symm.trans hpushed)
  · rw [hactions, run_append]
    exact (extends_run _ hafter).getElem?_eq hnode

/-- A formula that fails behind its first operand, a sum over what it left, a table that fails in
its second row, the copy of the sum, and a dump in its place. -/
theorem childrenFirst_after_actions_of_failures :
    empty.LegalRun [.push (.number 1), .read "A1+".toList,
      .push (.plus (.ofIndex 0) (.ofIndex 1)), .readTable "=1+A0|x\n=+".toList,
      .extract (.ofIndex 2), .load (leBytes 8 0 ++ leBytes 8 1 ++ Node.bytes (.ref ⟨0, 1⟩))] ∧
    (empty.run [.push (.number 1), .read "A1+".toList,
      .push (.plus (.ofIndex 0) (.ofIndex 1)), .readTable "=1+A0|x\n=+".toList,
      .extract (.ofIndex 2),
      .load (leBytes 8 0 ++ leBytes 8 1 ++ Node.bytes (.ref ⟨0, 1⟩))]).ChildrenFirst := by
  have hlegal : empty.LegalRun [.push (.number 1), .read "A1+".toList,
      .push (.plus (.ofIndex 0) (.ofIndex 1)), .readTable "=1+A0|x\n=+".toList,
      .extract (.ofIndex 2),
      .load (leBytes 8 0 ++ leBytes 8 1 ++ Node.bytes (.ref ⟨0, 1⟩))] := by decide +kernel
  exact ⟨hlegal, (childrenFirst_after_actions hlegal).1⟩

end Formula.Store

end PipeSheet
