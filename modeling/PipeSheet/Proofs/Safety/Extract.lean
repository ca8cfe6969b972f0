import PipeSheet.Formula.Tree
import PipeSheet.Proofs.Formula.Extract
import PipeSheet.Proofs.Safety.Checked
import PipeSheet.Proofs.Safety.Reading
/-!
# PipeSheet.Proofs.Safety.Extract

**Where children stand first, a formula can be walked without leaving its store.**

Writing a formula follows its children as long as there are any, and copying one keeps the ids that
it has not looked at on a stack. Here both are written out as a machine does them, with a check of
every id and every index. What is written is the text of the tree (`exists_displays`), and what is
copied is what the program extracts, as long as the copy has fewer nodes than there are ids
(`Checked.extract_eq`). If it has more, the copy is full before the walk comes to the root
(`Checked.extract_eq_full`).

The stack grows with every node that is marked, so nothing but the marks makes the walk end. Its
invariant is `Walking`: a child of a marked node is marked or waits on the stack.

* `Displays`: writing a formula, as a relation, since without children first it may not end;
* `Checked.reach`, `Checked.copy`, `Checked.extract`: copying a formula.
-/

namespace PipeSheet

open Formula (IsCopy Marked Names Node NodeId Store Tree marks ok_bind)

/-! ### Writing -/

/-- Writing the formula under an id ends with a text, or at an id that denotes no node. -/
inductive Displays (store : Store) : NodeId → Except Panic (List Char) → Prop
  | missing {id : NodeId} {p : Panic} : Checked.node store id = .error p →
      Displays store id (.error p)
  | number {id : NodeId} {v : Float} : Checked.node store id = .ok (.number v) →
      Displays store id (.ok (Number.plain v))
  | ref {id : NodeId} {q : Position} : Checked.node store id = .ok (.ref q) →
      Displays store id (.ok q.label)
  | plus {id lhs rhs : NodeId} {l r : List Char} : Checked.node store id = .ok (.plus lhs rhs) →
      Displays store lhs (.ok l) → Displays store rhs (.ok r) →
      Displays store id (.ok ('(' :: l ++ [' ', '+', ' '] ++ r ++ [')']))
  | left {id lhs rhs : NodeId} {p : Panic} : Checked.node store id = .ok (.plus lhs rhs) →
      Displays store lhs (.error p) → Displays store id (.error p)
  | right {id lhs rhs : NodeId} {l : List Char} {p : Panic} :
      Checked.node store id = .ok (.plus lhs rhs) → Displays store lhs (.ok l) →
      Displays store rhs (.error p) → Displays store id (.error p)

section Display

variable {store : Store} {id : NodeId} {tree : Tree} {r r' : Except Panic (List Char)}

theorem Displays.unique (h : Displays store id r) (h' : Displays store id r') : r = r' := by
  induction h generalizing r' with
  | missing hnode =>
      cases h' with
      | missing hnode' => cases hnode.symm.trans hnode'; rfl
      | number hnode' | ref hnode' => cases hnode.symm.trans hnode'
      | plus hnode' | left hnode' | right hnode' => cases hnode.symm.trans hnode'
  | number hnode =>
      cases h' with
      | number hnode' => cases hnode.symm.trans hnode'; rfl
      | missing hnode' | ref hnode' => cases hnode.symm.trans hnode'
      | plus hnode' | left hnode' | right hnode' => cases hnode.symm.trans hnode'
  | ref hnode =>
      cases h' with
      | ref hnode' => cases hnode.symm.trans hnode'; rfl
      | missing hnode' | number hnode' => cases hnode.symm.trans hnode'
      | plus hnode' | left hnode' | right hnode' => cases hnode.symm.trans hnode'
  | plus hnode _ _ ihl ihr =>
      cases h' with
      | missing hnode' | number hnode' | ref hnode' => cases hnode.symm.trans hnode'
      | plus hnode' hl hr =>
          cases hnode.symm.trans hnode'
          cases ihl hl
          cases ihr hr
          rfl
      | left hnode' hl =>
          cases hnode.symm.trans hnode'
          cases ihl hl
      | right hnode' _ hr =>
          cases hnode.symm.trans hnode'
          cases ihr hr
  | left hnode _ ihl =>
      cases h' with
      | missing hnode' | number hnode' | ref hnode' => cases hnode.symm.trans hnode'
      | plus hnode' hl _ | right hnode' hl _ =>
          cases hnode.symm.trans hnode'
          cases ihl hl
      | left hnode' hl =>
          cases hnode.symm.trans hnode'
          cases ihl hl
          rfl
  | right hnode _ _ ihl ihr =>
      cases h' with
      | missing hnode' | number hnode' | ref hnode' => cases hnode.symm.trans hnode'
      | plus hnode' _ hr =>
          cases hnode.symm.trans hnode'
          cases ihr hr
      | left hnode' hl =>
          cases hnode.symm.trans hnode'
          cases ihl hl
      | right hnode' _ hr =>
          cases hnode.symm.trans hnode'
          cases ihr hr
          rfl

/-- A formula with a tree is written to its end. -/
theorem displays_of_tree? (h : store.tree? id = some tree) :
    Displays store id (.ok tree.render) := by
  have hget : ∀ {node : Node} {id : NodeId}, store.get? id = some node →
      Checked.node store id = .ok node := by
    intro node id hnode
    rw [Checked.node, hnode]
  induction tree generalizing id with
  | number v =>
      rw [Tree.render_number]
      exact .number (hget (Store.get?_of_tree? h))
  | ref q =>
      rw [Tree.render_ref]
      exact .ref (hget (Store.get?_of_tree? h))
  | plus l r ihl ihr =>
      obtain ⟨lhs, rhs, hnode, hl, hr⟩ := Store.get?_of_tree? h
      rw [Tree.render_plus]
      exact .plus (hget hnode) (ihl hl) (ihr hr)

end Display

/-! ### Copying -/

namespace Checked

/-- A mark takes the place of none. -/
theorem count_set_lt {reachable : Array Bool} {i : Nat} (h : reachable[i]? = some false) :
    (reachable.setIfInBounds i true).count false < reachable.count false := by
  obtain ⟨hi, hvalue⟩ := Array.getElem?_eq_some_iff.1 h
  have hpos : 0 < reachable.count false :=
    Array.count_pos_iff.2 (hvalue ▸ Array.getElem_mem hi)
  rw [Array.setIfInBounds, dif_pos hi, Array.count_set hi, hvalue]
  simp only [beq_self_eq_true, if_true, Bool.true_beq, Bool.false_eq_true, if_false]
  omega

/-- Marks the nodes under the pending ids, of which the first one is looked at next. -/
def reach (store : Store) (reachable : Array Bool) : List NodeId → Except Panic (Array Bool)
  | [] => .ok reachable
  | id :: pending =>
    match _h : reachable[id.index]? with
    | none => .error (.noNode id)
    | some true => reach store reachable pending
    | some false =>
      match node store id with
      | .error p => .error p
      | .ok n => reach store (reachable.setIfInBounds id.index true) (n.children.reverse ++ pending)
termination_by pending => (reachable.count false, pending.length)
decreasing_by
  · exact Prod.Lex.right _ (Nat.lt_succ_self _)
  · exact Prod.Lex.left _ _ (count_set_lt _h)

/-- The node with its children named by their copies. -/
def renamed (copies : Array NodeId) : Node → Except Panic Node
  | .plus lhs rhs =>
    match copies[lhs.index]?, copies[rhs.index]? with
    | some l, some r => .ok (.plus l r)
    | none, _ => .error (.noNode lhs)
    | _, none => .error (.noNode rhs)
  | leaf => .ok leaf

/-- Copies the nodes at some indices. -/
def copy (store : Store) (copies : Array NodeId) (out : Store) :
    List Nat → Except Panic (Array NodeId × Store)
  | [] => .ok (copies, out)
  | i :: rest =>
    match store.nodes[i]? with
    | none => .error (.noNode (.ofIndex i))
    | some node => do
      let node ← renamed copies node
      let (id, out) ← push out node
      if i < copies.size then copy store (copies.setIfInBounds i id) out rest
      else .error (.noNode (.ofIndex i))

/-- A store of only the nodes under a root, and the root in it. -/
def extract (store : Store) (root : NodeId) : Except Panic (Store × NodeId) := do
  let reachable ← reach store (Array.replicate (root.index + 1) false) [root]
  let kept := (List.range reachable.size).filter fun i => Marked reachable i
  let (copies, out) ← copy store (Array.replicate reachable.size .invalid) .empty kept
  match copies[root.index]? with
  | some id => .ok (out, id)
  | none => .error (.noNode root)

end Checked

/-! ### The walk -/

/-- The index is marked, or it waits. -/
def Reached (reachable : Array Bool) (pending : List NodeId) (i : Nat) : Prop :=
  Marked reachable i ∨ ∃ id ∈ pending, id.index = i

/-- Only what is under the root is marked or waits, and the children of what is marked are marked or
wait. -/
structure Walking (store : Store) (root : Nat) (reachable : Array Bool) (pending : List NodeId) :
    Prop where
  inside : ∀ id ∈ pending, id.index < reachable.size
  sound : ∀ i, Reached reachable pending i → store.Under root i
  root : Reached reachable pending root
  closed : ∀ i j, Marked reachable i → store.IsChild i j → Reached reachable pending j

namespace Walking

variable {store : Store} {root : Nat} {reachable : Array Bool} {pending : List NodeId} {id : NodeId}

theorem skip (h : Walking store root reachable (id :: pending)) (hid : Marked reachable id.index) :
    Walking store root reachable pending := by
  have hless : ∀ i, Reached reachable (id :: pending) i → Reached reachable pending i := by
    rintro i (hi | ⟨x, hx, rfl⟩)
    · exact .inl hi
    · rcases List.mem_cons.1 hx with rfl | hx
      · exact .inl hid
      · exact .inr ⟨x, hx, rfl⟩
  refine ⟨fun x hx => h.inside x (List.mem_cons_of_mem _ hx), ?_, hless _ h.root, ?_⟩
  · rintro i (hi | ⟨x, hx, rfl⟩)
    · exact h.sound i (.inl hi)
    · exact h.sound _ (.inr ⟨x, List.mem_cons_of_mem _ hx, rfl⟩)
  · exact fun i j hi hj => hless j (h.closed i j hi hj)

theorem marked_set {i : Nat} (hid : id.index < reachable.size) :
    Marked (reachable.setIfInBounds id.index true) i ↔ Marked reachable i ∨ id.index = i := by
  have hmark := @Formula.marked_mark reachable i id
  rw [Formula.mark] at hmark
  rw [hmark]
  refine or_congr_right (and_iff_left_of_imp ?_)
  rintro rfl
  exact hid

theorem enter (h : Walking store root reachable (id :: pending)) (hfirst : store.ChildrenFirst)
    {node : Node} (hnode : store.nodes[id.index]? = some node) :
    Walking store root (reachable.setIfInBounds id.index true)
      (node.children.reverse ++ pending) := by
  have hid := h.inside id List.mem_cons_self
  have hmore : ∀ i, Reached reachable (id :: pending) i →
      Reached (reachable.setIfInBounds id.index true) (node.children.reverse ++ pending) i := by
    rintro i (hi | ⟨x, hx, rfl⟩)
    · exact .inl ((marked_set hid).2 (.inl hi))
    · rcases List.mem_cons.1 hx with rfl | hx
      · exact .inl ((marked_set hid).2 (.inr rfl))
      · exact .inr ⟨x, List.mem_append_right _ hx, rfl⟩
  refine ⟨?_, ?_, hmore _ h.root, ?_⟩
  · intro x hx
    rw [Array.size_setIfInBounds]
    rcases List.mem_append.1 hx with hx | hx
    · exact Nat.lt_trans (hfirst _ node hnode x (List.mem_reverse.1 hx)) hid
    · exact h.inside x (List.mem_cons_of_mem _ hx)
  · have hunder := h.sound id.index (.inr ⟨id, List.mem_cons_self, rfl⟩)
    rintro i (hi | ⟨x, hx, rfl⟩)
    · rcases (marked_set hid).1 hi with hi | rfl
      · exact h.sound i (.inl hi)
      · exact hunder
    · rcases List.mem_append.1 hx with hx | hx
      · exact hunder.tail ⟨node, hnode, x, List.mem_reverse.1 hx, rfl⟩
      · exact h.sound _ (.inr ⟨x, List.mem_cons_of_mem _ hx, rfl⟩)
  · intro i j hi hj
    rcases (marked_set hid).1 hi with hi | rfl
    · exact hmore j (h.closed i j hi hj)
    · obtain ⟨node', hnode', child, hchild, rfl⟩ := hj
      obtain rfl : node = node' := Option.some.inj (hnode.symm.trans hnode')
      exact .inr ⟨child, List.mem_append_left _ (List.mem_reverse.2 hchild), rfl⟩

/-- When nothing waits any more, the marks are what is under the root. -/
theorem marked_iff (h : Walking store root reachable []) {j : Nat} :
    Marked reachable j ↔ store.Under root j := by
  have hmarked : ∀ {i}, Reached reachable [] i → Marked reachable i := by
    rintro i (hi | ⟨x, hx, _⟩)
    · exact hi
    · cases hx
  constructor
  · exact fun hj => h.sound j (.inl hj)
  · intro hunder
    induction hunder with
    | refl => exact hmarked h.root
    | tail _ hchild ih => exact hmarked (h.closed _ _ ih hchild)

end Walking

namespace Checked

section Walk

variable {store : Store} {root : NodeId}

/-- The walk ends, and finds what is under the root. -/
theorem exists_reach {start : Nat} {reachable : Array Bool} {pending : List NodeId}
    (hfirst : store.ChildrenFirst) (hsize : reachable.size ≤ store.size)
    (h : Walking store start reachable pending) :
    ∃ found, reach store reachable pending = .ok found ∧ found.size = reachable.size ∧
      Walking store start found [] := by
  fun_induction reach store reachable pending with
  | case1 reachable => exact ⟨reachable, rfl, rfl, h⟩
  | case2 reachable id pending hnone =>
      have hid := h.inside id List.mem_cons_self
      exact absurd (Array.getElem?_eq_none_iff.1 hnone) (Nat.not_le_of_lt hid)
  | case3 reachable id pending hmarked ih => exact ih hsize (h.skip hmarked)
  | case4 reachable id pending hunmarked p hnode =>
      have hid := h.inside id List.mem_cons_self
      obtain ⟨n, hn⟩ := Store.exists_getElem? (Nat.lt_of_lt_of_le hid hsize)
      have hget : store.get? id = some n := hn
      rw [node, hget] at hnode
      cases hnode
  | case5 reachable id pending hunmarked n hnode ih =>
      have hget : store.nodes[id.index]? = some n := by
        unfold node at hnode
        split at hnode
        · next hget =>
          cases hnode
          exact hget
        · cases hnode
      obtain ⟨found, hfound, hfoundSize, hwalking⟩ :=
        ih (by rwa [Array.size_setIfInBounds]) (h.enter hfirst hget)
      rw [Array.size_setIfInBounds] at hfoundSize
      exact ⟨found, hfound, hfoundSize, hwalking⟩

theorem walking_start (store : Store) (root : NodeId) :
    Walking store root.index (Array.replicate (root.index + 1) false) [root] := by
  have hnone := Formula.not_marked_replicate (root.index + 1)
  refine ⟨?_, ?_, .inr ⟨root, List.mem_singleton_self _, rfl⟩, ?_⟩
  · intro id hid
    rw [List.mem_singleton.1 hid, Array.size_replicate]
    exact Nat.lt_succ_self _
  · rintro i (hi | ⟨id, hid, rfl⟩)
    · exact absurd hi (hnone i)
    · rw [List.mem_singleton.1 hid]
      exact .refl
  · exact fun i j hi => absurd hi (hnone i)

/-- The walk finds the marks. -/
theorem reach_eq (hfirst : store.ChildrenFirst) (hroot : root.index < store.size) :
    reach store (Array.replicate (root.index + 1) false) [root] = .ok (marks store root) := by
  obtain ⟨found, hfound, hsize, hwalking⟩ :=
    exists_reach hfirst (by rw [Array.size_replicate]; exact hroot) (walking_start store root)
  rw [Array.size_replicate] at hsize
  rw [hfound]
  refine congrArg _ (Array.ext_getElem? fun i => ?_)
  have hiff : Marked found i ↔ Marked (marks store root) i :=
    hwalking.marked_iff.trans (Formula.marked_marks hfirst hroot).symm
  by_cases hi : i < root.index + 1
  · have hleft : i < found.size := hsize ▸ hi
    have hright : i < (marks store root).size := by rwa [Formula.size_marks]
    rw [Marked, Marked, Array.getElem?_eq_getElem hleft, Array.getElem?_eq_getElem hright,
      Option.some_inj, Option.some_inj] at hiff
    rw [Array.getElem?_eq_getElem hleft, Array.getElem?_eq_getElem hright,
      Bool.eq_iff_iff.2 hiff]
  · rw [Array.getElem?_eq_none (by omega),
      Array.getElem?_eq_none (by rw [Formula.size_marks]; omega)]

end Walk

/-! ### The copy -/

section Copy

variable {store out : Store} {p : Nat → Prop} [DecidablePred p] {k : Nat} {copies : Array NodeId}

theorem renamed_eq {n : Node} (h : Names p k copies)
    (hchildren : ∀ child ∈ n.children, p child.index ∧ child.index < k) :
    renamed copies n = .ok (n.recounted p) := by
  have hname : ∀ child ∈ n.children,
      copies[child.index]? = some (.ofIndex (Nat.count p child.index)) := by
    intro child hchild
    exact h _ (hchildren child hchild).1 (hchildren child hchild).2
  cases n with
  | number v => rfl
  | ref q => rfl
  | plus lhs rhs =>
      rw [renamed, hname lhs (List.mem_pair.2 (.inl rfl)), hname rhs (List.mem_pair.2 (.inr rfl))]
      rfl

theorem copy_append (store : Store) (copies : Array NodeId) (out : Store) (front back : List Nat) :
    copy store copies out (front ++ back) =
      copy store copies out front >>= fun r => copy store r.1 r.2 back := by
  induction front generalizing copies out with
  | nil => rfl
  | cons i rest ih =>
      rw [List.cons_append, copy, copy]
      cases store.nodes[i]? with
      | none => rfl
      | some n =>
          dsimp only
          cases renamed copies n with
          | error e => rfl
          | ok n =>
              rw [ok_bind, ok_bind]
              cases push out n with
              | error e => rfl
              | ok added =>
                  rw [ok_bind, ok_bind]
                  split
                  · exact ih _ _
                  · rfl

/-- A kept node is renamed to a node that may be added to the copies so far. -/
theorem renamed_of_kept (hfirst : store.ChildrenFirst)
    (hclosed : ∀ i j, p i → store.IsChild i j → p j) (hnames : Names p k copies)
    (hcopy : IsCopy store p k out) (hk : p k) {n : Node} (hnode : store.nodes[k]? = some n) :
    renamed copies n = .ok (n.recounted p) ∧
      ∀ child ∈ (n.recounted p).children, child.index < out.size := by
  refine ⟨renamed_eq hnames fun child hchild => ?_, fun child hchild => ?_⟩
  · exact ⟨hclosed k _ hk ⟨n, hnode, child, hchild, rfl⟩, hfirst k n hnode child hchild⟩
  · obtain ⟨old, hold, hindex⟩ := Formula.Node.mem_children_recounted hchild
    have hkept := hclosed k _ hk ⟨n, hnode, old, hold, rfl⟩
    rw [hindex, hcopy.size_eq]
    exact Nat.count_strict_mono hkept (hfirst k n hnode old hold)

/-- Copying the kept nodes from an index on ends with a copy of all of them, if there are ids for
them. -/
theorem exists_copy (hfirst : store.ChildrenFirst)
    (hclosed : ∀ i j, p i → store.IsChild i j → p j) {count : Nat}
    (hcount : k + count ≤ store.size) (hsize : Nat.count p (k + count) < 2 ^ 32)
    (hcopies : k + count ≤ copies.size) (hnames : Names p k copies) (hcopy : IsCopy store p k out) :
    ∃ copies' out', copy store copies out ((List.range' k count).filter fun i => p i) =
        .ok (copies', out') ∧ Names p (k + count) copies' ∧ IsCopy store p (k + count) out' := by
  induction count generalizing k copies out with
  | zero => exact ⟨copies, out, rfl, hnames, hcopy⟩
  | succ count ih =>
      have hshift : k + (count + 1) = k + 1 + count := by omega
      rw [hshift] at hcount hsize hcopies ⊢
      by_cases hk : p k
      · obtain ⟨n, hnode⟩ := Store.exists_getElem? (s := store) (i := k) (by omega)
        obtain ⟨hrenamed, hchildren⟩ := renamed_of_kept hfirst hclosed hnames hcopy hk hnode
        have hroom : out.size + 1 < 2 ^ 32 := by
          have hle := Nat.count_monotone p (Nat.le_add_right (k + 1) count)
          rw [Nat.count_succ, if_pos hk, ← hcopy.size_eq] at hle
          omega
        have hnames' : Names p (k + 1)
            (copies.setIfInBounds k (out.push (n.recounted p)).1) := by
          intro i hi hlt
          rw [Array.getElem?_setIfInBounds, Store.fst_push, hcopy.size_eq]
          rcases Nat.lt_succ_iff_lt_or_eq.1 hlt with hlt | rfl
          · rw [if_neg (Nat.ne_of_gt hlt)]
            exact hnames i hi hlt
          · rw [if_pos rfl, if_pos (by omega)]
        obtain ⟨copies', out', hrest, hdone⟩ :=
          ih hcount hsize (by rwa [Array.size_setIfInBounds]) hnames' (hcopy.push hk hnode)
        refine ⟨copies', out', ?_, hdone⟩
        rw [List.range'_succ, List.filter_cons_of_pos (by simpa using hk), copy, hnode]
        dsimp only
        rw [hrenamed, ok_bind, push_eq hroom hchildren, ok_bind, if_pos (by omega)]
        exact hrest
      · have hnames' : Names p (k + 1) copies := by
          intro i hi hlt
          rcases Nat.lt_succ_iff_lt_or_eq.1 hlt with hlt | rfl
          · exact hnames i hi hlt
          · exact absurd hi hk
        rw [List.range'_succ, List.filter_cons_of_neg (by simpa using hk)]
        exact ih hcount hsize hcopies hnames' (hcopy.skip hk)

/-- The largest id is never given out, so a node for which it would be the next one is not
copied. -/
theorem copy_eq_full (hfirst : store.ChildrenFirst)
    (hclosed : ∀ i j, p i → store.IsChild i j → p j) (hk : p k) (hstore : k < store.size)
    (hsize : Nat.count p k + 1 = 2 ^ 32) (hcopies : k ≤ copies.size) :
    copy store copies .empty ((List.range' 0 (k + 1)).filter fun i => p i) = .error .full := by
  have hcount : 0 + k ≤ store.size := by omega
  obtain ⟨copies', out, hfront, hnames, hcopy⟩ := exists_copy hfirst hclosed hcount
    (by rw [Nat.zero_add]; omega) (by omega) (.zero p copies) (.zero store p)
  rw [Nat.zero_add] at hnames hcopy
  obtain ⟨n, hnode⟩ := Store.exists_getElem? hstore
  obtain ⟨hrenamed, _⟩ := renamed_of_kept hfirst hclosed hnames hcopy hk hnode
  have hfull : ¬ out.size < NodeId.invalid.index := by
    have hmax : NodeId.invalid.index = 2 ^ 32 - 1 := rfl
    rw [hcopy.size_eq]
    omega
  have hlast : ([0 + 1 * k].filter fun i => p i) = [k] := by
    rw [Nat.one_mul, Nat.zero_add, List.filter_singleton, decide_eq_true hk]
    rfl
  rw [List.range'_concat, List.filter_append, copy_append, hfront, ok_bind, hlast, copy, hnode]
  dsimp only
  rw [hrenamed, ok_bind, push, if_neg hfull]
  rfl

end Copy

/-- Extracting is copying what is under the root. -/
theorem extract_eq_copy {store : Store} {root : NodeId} (hfirst : store.ChildrenFirst)
    (hroot : root.index < store.size) : extract store root = (do
      let (copies, out) ← copy store (Array.replicate (root.index + 1) .invalid) .empty
        ((List.range' 0 (root.index + 1)).filter fun i => Marked (marks store root) i)
      match copies[root.index]? with
      | some id => .ok (out, id)
      | none => .error (.noNode root)) := by
  rw [extract, reach_eq hfirst hroot, ok_bind, Formula.size_marks, List.range_eq_range']

section Extract

variable {store out : Store} {root r : NodeId}

/-- A machine extracts what the program extracts, and leaves no domain, as long as there are ids for
all nodes of the copy. -/
theorem extract_eq (hfirst : store.ChildrenFirst) (hroot : root.index < store.size)
    (h : store.Extracts root out r) (hsize : out.size < 2 ^ 32) :
    extract store root = .ok (out, r) := by
  have hclosed : ∀ i j, Marked (marks store root) i → store.IsChild i j →
      Marked (marks store root) j :=
    fun i j hi hchild => Formula.marked_of_isChild hfirst hroot hi hchild
  have hcount : Nat.count (Marked (marks store root)) (0 + (root.index + 1)) < 2 ^ 32 := by
    rwa [Nat.zero_add, ← h.copy.size_eq]
  have hempty : 0 + (root.index + 1) ≤ (Array.replicate (root.index + 1) NodeId.invalid).size := by
    rw [Array.size_replicate, Nat.zero_add]
  obtain ⟨copies, copied, hcopy, hnames, hiscopy⟩ :=
    exists_copy hfirst hclosed (by omega) hcount hempty (.zero _ _) (.zero store _)
  rw [Nat.zero_add] at hnames hiscopy
  have hname := hnames root.index ((Formula.marked_marks hfirst hroot).2 .refl) (Nat.lt_succ_self _)
  obtain ⟨rfl, rfl⟩ := h.unique ⟨hiscopy, rfl⟩ hfirst hroot
  rw [extract_eq_copy hfirst hroot, hcopy, ok_bind]
  dsimp only
  rw [hname]

/-- If there are more nodes under the root than there are ids, a machine stops. -/
theorem extract_eq_full (hfirst : store.ChildrenFirst) (hroot : root.index < store.size)
    (h : store.Extracts root out r) (hsize : 2 ^ 32 ≤ out.size) :
    extract store root = .error .full := by
  have hmarked : Marked (marks store root) root.index := (Formula.marked_marks hfirst hroot).2 .refl
  have hcount : Nat.count (Marked (marks store root)) root.index + 1 = 2 ^ 32 := by
    have hle := Nat.count_le (Marked (marks store root)) (n := root.index)
    have hlt := root.index_lt
    rw [h.copy.size_eq, Nat.count_succ, if_pos hmarked] at hsize
    omega
  have hempty : root.index ≤ (Array.replicate (root.index + 1) NodeId.invalid).size := by
    rw [Array.size_replicate]
    omega
  have hfull := copy_eq_full hfirst
    (fun i j hi hchild => Formula.marked_of_isChild hfirst hroot hi hchild) hmarked hroot hcount
    hempty
  rw [extract_eq_copy hfirst hroot, hfull]
  rfl

end Extract

end Checked

end PipeSheet
