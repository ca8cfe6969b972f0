import PipeSheet.Proofs.Formula.Records
/-!
# PipeSheet.Proofs.Formula.Defects

**Bytes that are no dump are refused for their first defect, and for which one is said exactly.**

The bytes are looked at three times. First the records are cut off: this fails only when the bytes
do not begin with a root, a number of records and as many records of a known tag (`Complete`),
whatever the fields are. Then the children are checked, node by node, and only then the root. So a
root that is out of range is hidden by a child that is, and both are hidden by a record that is not
complete.

Whether bytes are complete can be seen from their lengths alone: a tag determines how many bytes
follow it, so no record is the beginning of another, and of a dump no byte can be missing.

* `Complete`, `complete_iff`: bytes from which root and nodes can be read;
* `DanglesAt`, `firstDangling?_cases`: the first child that does not stand before its parent;
* `Store.load_defects`: what reading answers, for all bytes.
-/

namespace PipeSheet.Formula

/-! ### Complete records -/

/-- A known tag with as many bytes behind it as the fields of such a record have. -/
def RecordShape (record : List UInt8) : Prop :=
  ∃ tag fields, record = leBytes 4 tag ++ fields ∧
    (tag = 0 ∧ fields.length = 8 ∨ tag = 1 ∧ fields.length = 16 ∨ tag = 2 ∧ fields.length = 8)

/-- Bytes that begin with a root, a count, and as many records. -/
def Complete (bytes : List UInt8) : Prop :=
  ∃ (root : Nat) (records : List (List UInt8)), root < 2 ^ 64 ∧ records.length < 2 ^ 64 ∧
    (∀ record ∈ records, RecordShape record) ∧
    leBytes 8 root ++ leBytes 8 records.length ++ records.flatten <+: bytes

theorem exists_takeNat? {width : Nat} {bytes : List UInt8} (h : width ≤ bytes.length) :
    ∃ n rest, takeNat? width bytes = some (n, rest) := by
  induction width generalizing bytes with
  | zero => exact ⟨0, bytes, rfl⟩
  | succ width ih =>
      cases bytes with
      | nil => cases h
      | cons byte bytes =>
          obtain ⟨n, rest, htake⟩ := ih (Nat.le_of_succ_le_succ h)
          exact ⟨byte.toNat + 256 * n, rest, by rw [takeNat?, htake]; rfl⟩

/-- As many bytes as a number has are the bytes of a number. -/
theorem exists_leBytes {width : Nat} {bytes : List UInt8} (h : bytes.length = width) :
    ∃ n < 256 ^ width, bytes = leBytes width n := by
  obtain ⟨n, rest, htake⟩ := exists_takeNat? (Nat.le_of_eq h.symm)
  obtain ⟨hn, hbytes⟩ := eq_of_takeNat? htake
  have hrest : rest = [] := by
    have hlen := congrArg List.length hbytes
    rw [List.length_append, length_leBytes, h] at hlen
    exact List.eq_nil_of_length_eq_zero (by omega)
  exact ⟨n, hn, by rw [hbytes, hrest, List.append_nil]⟩

theorem exists_leBytes_append {width : Nat} {bytes : List UInt8}
    (h : bytes.length = width + width) :
    ∃ a < 256 ^ width, ∃ b < 256 ^ width, bytes = leBytes width a ++ leBytes width b := by
  have hfront : (bytes.take width).length = width := by
    rw [List.length_take]
    omega
  have hback : (bytes.drop width).length = width := by
    rw [List.length_drop]
    omega
  obtain ⟨a, ha, htake⟩ := exists_leBytes hfront
  obtain ⟨b, hb, hdrop⟩ := exists_leBytes hback
  exact ⟨a, ha, b, hb, by rw [← htake, ← hdrop, List.take_append_drop]⟩

/-- Whatever its fields are, a complete record is the record of a node. -/
theorem RecordShape.exists_node {record : List UInt8} (h : RecordShape record) :
    ∃ node : Node, node.Fits ∧ node.IsRecord record := by
  obtain ⟨tag, fields, rfl, ⟨rfl, hlen⟩ | ⟨rfl, hlen⟩ | ⟨rfl, hlen⟩⟩ := h
  · obtain ⟨bits, hbits, rfl⟩ := exists_leBytes hlen
    have hrecord := isRecord_number (UInt64.ofNat bits)
    rw [UInt64.toNat_ofNat_of_lt' hbits] at hrecord
    refine ⟨_, ?_, hrecord⟩
    exact trivial
  · obtain ⟨row, hrow, col, hcol, rfl⟩ := @exists_leBytes_append 8 _ hlen
    refine ⟨.ref ⟨row, col⟩, ⟨hrow, hcol⟩, ?_⟩
    rw [← List.append_assoc]
    exact .written _
  · obtain ⟨lhs, hl, rhs, hr, rfl⟩ := @exists_leBytes_append 4 _ hlen
    refine ⟨.plus (.ofIndex lhs) (.ofIndex rhs), trivial, ?_⟩
    have hrecord := Node.IsRecord.written (.plus (.ofIndex lhs) (.ofIndex rhs))
    rwa [Node.bytes, NodeId.index_ofIndex hl, NodeId.index_ofIndex hr, List.append_assoc]
      at hrecord

theorem Node.IsRecord.shape {node : Node} {record : List UInt8} (h : node.IsRecord record) :
    RecordShape record := by
  cases h with
  | payload _ => exact ⟨0, _, rfl, .inl ⟨rfl, length_leBytes ..⟩⟩
  | written =>
      cases node with
      | number value => exact ⟨0, _, rfl, .inl ⟨rfl, length_leBytes ..⟩⟩
      | ref target =>
          refine ⟨1, _, List.append_assoc .., .inr (.inl ⟨rfl, ?_⟩)⟩
          rw [List.length_append, length_leBytes, length_leBytes]
      | plus lhs rhs =>
          refine ⟨2, _, List.append_assoc .., .inr (.inr ⟨rfl, ?_⟩)⟩
          rw [List.length_append, length_leBytes, length_leBytes]

theorem exists_nodes_of_shape {records : List (List UInt8)}
    (h : ∀ record ∈ records, RecordShape record) :
    ∃ nodes : List Node, (∀ node ∈ nodes, node.Fits) ∧
      List.Forall₂ Node.IsRecord nodes records := by
  induction records with
  | nil => exact ⟨[], by simp, .nil⟩
  | cons record records ih =>
      obtain ⟨hrecord, hrecords⟩ := List.forall_mem_cons.1 h
      obtain ⟨node, hfit, hnode⟩ := hrecord.exists_node
      obtain ⟨nodes, hfits, hnodes⟩ := ih hrecords
      exact ⟨node :: nodes, List.forall_mem_cons.2 ⟨hfit, hfits⟩, .cons hnode hnodes⟩

theorem shape_of_forall₂ {nodes : List Node} {records : List (List UInt8)}
    (h : List.Forall₂ Node.IsRecord nodes records) : ∀ record ∈ records, RecordShape record := by
  induction h with
  | nil => simp
  | cons hrecord _ ih => exact List.forall_mem_cons.2 ⟨hrecord.shape, ih⟩

/-- Complete bytes are those from which a root and nodes can be read. -/
theorem complete_iff (bytes : List UInt8) :
    Complete bytes ↔ ∃ root nodes, Encodes bytes root nodes := by
  constructor
  · rintro ⟨root, records, hroot, hcount, hshape, hbytes⟩
    obtain ⟨nodes, hfits, hrecords⟩ := exists_nodes_of_shape hshape
    rw [← hrecords.length_eq] at hcount hbytes
    exact ⟨root, nodes, hroot, hcount, hfits, records, hrecords, hbytes⟩
  · rintro ⟨root, nodes, hroot, hcount, hfits, records, hrecords, hbytes⟩
    rw [hrecords.length_eq] at hcount hbytes
    exact ⟨root, records, hroot, hcount, shape_of_forall₂ hrecords, hbytes⟩

/-! ### Strict prefixes -/

theorem leBytes_inj {width m n : Nat} (hm : m < 256 ^ width) (hn : n < 256 ^ width)
    (h : leBytes width m = leBytes width n) : m = n := by
  have hread := takeNat?_leBytes hm []
  rw [h, takeNat?_leBytes hn []] at hread
  cases hread
  rfl

/-- Numbers of one width end at the same place. -/
theorem leBytes_append_inj {width m n : Nat} {x y : List UInt8} (hm : m < 256 ^ width)
    (hn : n < 256 ^ width) (h : leBytes width m ++ x = leBytes width n ++ y) : m = n ∧ x = y := by
  obtain ⟨hfront, hback⟩ := List.append_inj h (by rw [length_leBytes, length_leBytes])
  exact ⟨leBytes_inj hm hn hfront, hback⟩

/-- The tag says where a record ends. -/
theorem RecordShape.append_inj {a b x y : List UInt8} (ha : RecordShape a) (hb : RecordShape b)
    (h : a ++ x = b ++ y) : a = b ∧ x = y := by
  obtain ⟨tag, fields, rfl, htag⟩ := ha
  obtain ⟨tag', fields', rfl, htag'⟩ := hb
  rw [List.append_assoc, List.append_assoc] at h
  obtain ⟨rfl, hfields⟩ := leBytes_append_inj (by omega) (by omega) h
  obtain ⟨rfl, hrest⟩ := List.append_inj hfields (by omega)
  exact ⟨rfl, hrest⟩

theorem flatten_append_inj {as bs : List (List UInt8)} {x y : List UInt8}
    (ha : ∀ a ∈ as, RecordShape a) (hb : ∀ b ∈ bs, RecordShape b) (hlen : as.length = bs.length)
    (h : as.flatten ++ x = bs.flatten ++ y) : x = y := by
  induction as generalizing bs with
  | nil =>
      obtain rfl := List.eq_nil_of_length_eq_zero hlen.symm
      exact h
  | cons a as ih =>
      cases bs with
      | nil => cases hlen
      | cons b bs =>
          obtain ⟨ha, has⟩ := List.forall_mem_cons.1 ha
          obtain ⟨hb, hbs⟩ := List.forall_mem_cons.1 hb
          rw [List.flatten_cons, List.flatten_cons, List.append_assoc, List.append_assoc] at h
          exact ih has hbs (Nat.succ.inj hlen) (ha.append_inj hb h).2

/-- A dump of which bytes are missing at the end is not complete. -/
theorem Store.Dumps.not_complete {s : Store} {root : NodeId} {w part : List UInt8}
    (h : s.Dumps root w) (hsize : s.size < 2 ^ 64) (hpart : part <+: w) (hne : part ≠ w) :
    ¬ Complete part := by
  obtain ⟨records, hrecords, rfl⟩ := h
  rintro ⟨root', records', hroot', hcount', hshape', rest, rfl⟩
  obtain ⟨more, hw⟩ := hpart
  have hmore := hw
  simp only [List.append_assoc] at hmore
  obtain ⟨_, hmore⟩ := leBytes_append_inj hroot' (Nat.lt_trans root.index_lt (by decide)) hmore
  obtain ⟨hcount, hmore⟩ := leBytes_append_inj hcount' hsize hmore
  have hlen : records'.length = records.length := hcount.trans hrecords.length_eq
  rw [← List.append_nil records.flatten] at hmore
  have hnil := flatten_append_inj hshape' (shape_of_forall₂ hrecords) hlen hmore
  obtain ⟨_, rfl⟩ := List.append_eq_nil_iff.1 hnil
  exact hne (by rw [← hw, List.append_nil])

/-! ### Children -/

/-- The node of index `i` is a sum with a child that does not stand before it. -/
def DanglesAt (nodes : List Node) (i : Nat) (lhs rhs : NodeId) : Prop :=
  nodes[i]? = some (.plus lhs rhs) ∧ (i ≤ lhs.index ∨ i ≤ rhs.index)

/-- The left child is the one that is named, if it is a defect at all. -/
theorem danglingChild?_plus (i : Nat) (lhs rhs : NodeId) :
    (Node.plus lhs rhs).danglingChild? i =
      if i ≤ lhs.index then some lhs else if i ≤ rhs.index then some rhs else none := by
  by_cases hlhs : i ≤ lhs.index
  · simp [Node.danglingChild?, Node.children, hlhs]
  · by_cases hrhs : i ≤ rhs.index
    · simp [Node.danglingChild?, Node.children, hlhs, hrhs]
    · simp [Node.danglingChild?, Node.children, hlhs, hrhs]

theorem danglingChild?_eq_none_iff (i : Nat) (node : Node) :
    node.danglingChild? i = none ↔
      ∀ lhs rhs, node = .plus lhs rhs → ¬ (i ≤ lhs.index ∨ i ≤ rhs.index) := by
  cases node with
  | number value => exact iff_of_true rfl nofun
  | ref target => exact iff_of_true rfl nofun
  | plus lhs rhs =>
      rw [danglingChild?_plus]
      constructor
      · rintro h l r ⟨⟩
        grind
      · intro h
        have := h lhs rhs rfl
        grind

theorem danglingChild?_eq_some {i : Nat} {node : Node} {child : NodeId}
    (h : node.danglingChild? i = some child) :
    ∃ lhs rhs, node = .plus lhs rhs ∧ (i ≤ lhs.index ∨ i ≤ rhs.index) ∧
      child = if i ≤ lhs.index then lhs else rhs := by
  cases node with
  | number value => cases h
  | ref target => cases h
  | plus lhs rhs =>
      rw [danglingChild?_plus] at h
      exact ⟨lhs, rhs, rfl, by grind⟩

/-- The search finds nothing where nothing dangles, and else the least node that does. -/
theorem firstDangling?_cases (nodes : List Node) :
    firstDangling? nodes = none ∧ (∀ i lhs rhs, ¬ DanglesAt nodes i lhs rhs) ∨
      ∃ i lhs rhs, DanglesAt nodes i lhs rhs ∧ (∀ j < i, ∀ l r, ¬ DanglesAt nodes j l r) ∧
        firstDangling? nodes = some (i, if i ≤ lhs.index then lhs else rhs) := by
  have hlook (i : Nat) (node : Node) :
      nodes.zipIdx[i]? = some (node, i) ↔ nodes[i]? = some node := by
    simp [List.getElem?_zipIdx]
  cases hfirst : firstDangling? nodes with
  | none =>
      refine .inl ⟨rfl, fun i lhs rhs hdangles => ?_⟩
      have hmem := List.mem_of_getElem? ((hlook i _).2 hdangles.1)
      have hnone := List.findSome?_eq_none_iff.1 hfirst _ hmem
      rw [Option.map_eq_none_iff, danglingChild?_eq_none_iff] at hnone
      exact hnone lhs rhs rfl hdangles.2
  | some found =>
      -- The nodes before the one that was found were looked at, and none of them dangles.
      obtain ⟨before, ⟨node, i⟩, after, hsplit, hfound, hbefore⟩ :=
        List.findSome?_eq_some_iff.1 hfirst
      obtain ⟨child, hchild, rfl⟩ := Option.map_eq_some_iff.1 hfound
      obtain ⟨lhs, rhs, rfl, hge, rfl⟩ := danglingChild?_eq_some hchild
      have hat : nodes.zipIdx[before.length]? = some (.plus lhs rhs, i) := by
        rw [hsplit, List.getElem?_append_right (Nat.le_refl _), Nat.sub_self]
        rfl
      obtain ⟨hnode, rfl⟩ : nodes[before.length]? = some (.plus lhs rhs) ∧ before.length = i := by
        rw [List.getElem?_zipIdx, Option.map_eq_some_iff] at hat
        obtain ⟨_, hnode, hpair⟩ := hat
        cases hpair
        exact ⟨hnode, (Nat.zero_add _).symm⟩
      refine .inr ⟨before.length, lhs, rhs, ⟨hnode, hge⟩, fun j hj l r hdangles => ?_, rfl⟩
      have hmem : (.plus l r, j) ∈ before := by
        refine List.mem_of_getElem? (i := j) ?_
        have hlooked := (hlook j _).2 hdangles.1
        rwa [hsplit, List.getElem?_append_left hj] at hlooked
      have hnone := hbefore _ hmem
      rw [Option.map_eq_none_iff, danglingChild?_eq_none_iff] at hnone
      exact hnone l r rfl hdangles.2

/-! ### Reading -/

namespace Store

variable {bytes : List UInt8} {root : Nat} {nodes : List Node}

/-- Reading looks at the children first and at the root afterwards. -/
theorem load_of_encodes (h : Encodes bytes root nodes) :
    load bytes = match firstDangling? nodes with
      | some (node, child) => .error (.danglingIndex node child)
      | none =>
        if root < nodes.length ∧ root < 2 ^ 32 then .ok (⟨nodes.toArray⟩, .ofIndex root)
        else .error (.rootOutOfRange root nodes.length) := by
  rw [load, (@readRecords_eq_ok_iff bytes root nodes.toArray).2 h]
  rfl

/-- Only what cannot be read is called malformed. -/
theorem load_malformed_iff (bytes : List UInt8) :
    (∃ m, load bytes = .error (.malformed m)) ↔ ¬ Complete bytes := by
  rw [complete_iff]
  constructor
  · rintro ⟨m, hload⟩ ⟨root, nodes, hread⟩
    rw [load_of_encodes hread] at hload
    split at hload
    · cases hload
    · split at hload <;> cases hload
  · intro h
    cases hread : readRecords bytes with
    | error m => exact ⟨m, by rw [load, hread]⟩
    | ok result =>
        obtain ⟨root, nodes⟩ := result
        exact absurd ⟨root, nodes.toList, readRecords_eq_ok_iff.1 hread⟩ h

/-- The bytes that are written of a root and nodes, whether the root is one of the nodes or not. -/
theorem encodes_bytes (hroot : root < 2 ^ 64) (hlength : nodes.length < 2 ^ 64)
    (hfits : ∀ node ∈ nodes, node.Fits) :
    Encodes (leBytes 8 root ++ leBytes 8 nodes.length ++ (nodes.map Node.bytes).flatten)
      root nodes :=
  ⟨hroot, hlength, hfits, _, forall₂_bytes nodes, List.prefix_refl _⟩

/-- What reading answers, for all bytes. Bytes are malformed exactly if they do not begin with a
root, a count and as many records of a known tag; a dump with bytes missing at the end is. Otherwise
they denote a root and nodes. The least node with a child that does not stand before it is reported
with its left child, or with the right one if only that does not, whatever the root is. If there is
none, a root that is not below the count is reported, also one that an id cannot hold, which is
never taken for the smaller number that its low bits are. All other bytes are read.

An id has 32 bits, so the last node that can be a root is the one of index `2 ^ 32 - 1`. Roots
beyond it are refused in each case, even one that is below the count. -/
theorem load_defects (bytes : List UInt8) :
    ((∃ m, load bytes = .error (.malformed m)) ↔ ¬ Complete bytes) ∧
    (∀ (s : Store) root w part, s.size < 2 ^ 64 → s.Dumps root w → part <+: w → part ≠ w →
      ∃ m, load part = .error (.malformed m)) ∧
    (Complete bytes ↔ ∃ root nodes, Encodes bytes root nodes) ∧
    ∀ root nodes, Encodes bytes root nodes →
      ((∃ i lhs rhs, DanglesAt nodes i lhs rhs) →
        ∃ i lhs rhs, DanglesAt nodes i lhs rhs ∧ (∀ j < i, ∀ l r, ¬ DanglesAt nodes j l r) ∧
          load bytes = .error (.danglingIndex i (if i ≤ lhs.index then lhs else rhs))) ∧
      ((∀ i lhs rhs, ¬ DanglesAt nodes i lhs rhs) →
        (nodes.length ≤ root ∨ 2 ^ 32 ≤ root →
          load bytes = .error (.rootOutOfRange root nodes.length)) ∧
        (root < nodes.length → root < 2 ^ 32 →
          load bytes = .ok (⟨nodes.toArray⟩, .ofIndex root))) := by
  refine ⟨load_malformed_iff bytes, fun s root w part hsize hdumps hpart hne => ?_,
    complete_iff bytes, fun root nodes hread => ?_⟩
  · exact (load_malformed_iff part).2 (hdumps.not_complete hsize hpart hne)
  · have hload := load_of_encodes hread
    obtain ⟨hnone, hfine⟩ | ⟨i, lhs, rhs, hdangles, hleast, hsome⟩ := firstDangling?_cases nodes
    · rw [hnone] at hload
      dsimp only at hload
      refine ⟨fun ⟨i, lhs, rhs, hdangles⟩ => absurd hdangles (hfine i lhs rhs), fun _ => ⟨?_, ?_⟩⟩
      · intro hroot
        rw [hload, if_neg (by omega)]
      · intro hroot hid
        rw [hload, if_pos ⟨hroot, hid⟩]
    · rw [hsome] at hload
      exact ⟨fun _ => ⟨i, lhs, rhs, hdangles, hleast, hload⟩,
        fun hfine => absurd hdangles (hfine i lhs rhs)⟩

theorem load_defects_of_sum :
    let nodes : List Node := [.number 1, .ref ⟨0, 1⟩, .plus (.ofIndex 0) (.ofIndex 1)]
    let forward : List Node := [.plus (.ofIndex 0) (.ofIndex 1)]
    let written (root : Nat) (nodes : List Node) : List UInt8 :=
      leBytes 8 root ++ leBytes 8 nodes.length ++ (nodes.map Node.bytes).flatten
    (∃ m, load ((written 2 nodes).take 40) = .error (.malformed m)) ∧
      load (written 7 forward) = .error (.danglingIndex 0 (.ofIndex 0)) ∧
      load (written (2 ^ 32) nodes) = .error (.rootOutOfRange (2 ^ 32) 3) ∧
      load (written 2 nodes) = .ok (⟨nodes.toArray⟩, .ofIndex 2) := by
  intro nodes forward written
  have hfits : ∀ node ∈ nodes, node.Fits := by simp [nodes, Node.Fits]
  have hfine : ∀ i lhs rhs, ¬ DanglesAt nodes i lhs rhs := by
    rintro (_ | _ | _ | i) lhs rhs ⟨hnode, hge⟩ <;> cases hnode
    revert hge
    decide
  have hdumps : Store.Dumps ⟨nodes.toArray⟩ (.ofIndex 2) (written 2 nodes) :=
    ⟨_, forall₂_bytes nodes, rfl⟩
  refine ⟨?_, ?_, ?_, ?_⟩
  · exact (load_defects []).2.1 _ _ _ _ (by decide) hdumps (List.take_prefix _ _) (by decide)
  · have hread : Encodes (written 7 forward) 7 forward :=
      encodes_bytes (by decide) (by decide) (by simp [forward, Node.Fits])
    obtain ⟨i, lhs, rhs, ⟨hnode, _⟩, _, hload⟩ := ((load_defects _).2.2.2 _ _ hread).1
      ⟨0, .ofIndex 0, .ofIndex 1, rfl, by decide⟩
    obtain _ | i := i
    · cases hnode
      exact hload
    · cases hnode
  · have hread : Encodes (written (2 ^ 32) nodes) (2 ^ 32) nodes :=
      encodes_bytes (by decide) (by decide) hfits
    exact (((load_defects _).2.2.2 _ _ hread).2 hfine).1 (.inr (by decide))
  · have hread : Encodes (written 2 nodes) 2 nodes :=
      encodes_bytes (by decide) (by decide) hfits
    exact (((load_defects _).2.2.2 _ _ hread).2 hfine).2 (by decide) (by decide)

/-- The last of `2 ^ 32 + 1` numbers is below their count, nothing dangles, and it is refused as the
root. -/
theorem load_refuses_last :
    let nodes : List Node := List.replicate (2 ^ 32 + 1) (.number 1)
    let bytes := leBytes 8 (2 ^ 32) ++ leBytes 8 nodes.length ++ (nodes.map Node.bytes).flatten
    Complete bytes ∧ Encodes bytes (2 ^ 32) nodes ∧ (∀ i lhs rhs, ¬ DanglesAt nodes i lhs rhs) ∧
      2 ^ 32 < nodes.length ∧
      load bytes = .error (.rootOutOfRange (2 ^ 32) (2 ^ 32 + 1)) := by
  intro nodes bytes
  have hlength : nodes.length = 2 ^ 32 + 1 := List.length_replicate
  have hnumber : ∀ node ∈ nodes, node = .number 1 :=
    fun node hnode => List.eq_of_mem_replicate hnode
  have hfits : ∀ node ∈ nodes, node.Fits := fun node hnode => hnumber node hnode ▸ trivial
  have hread : Encodes bytes (2 ^ 32) nodes :=
    encodes_bytes (by omega) (by rw [hlength]; omega) hfits
  have hfine : ∀ i lhs rhs, ¬ DanglesAt nodes i lhs rhs := by
    rintro i lhs rhs ⟨hnode, _⟩
    cases hnumber _ (List.mem_of_getElem? hnode)
  have hnone : firstDangling? nodes = none := by
    obtain ⟨hnone, _⟩ | ⟨i, lhs, rhs, hdangles, _⟩ := firstDangling?_cases nodes
    · exact hnone
    · exact absurd hdangles (hfine i lhs rhs)
  refine ⟨(complete_iff bytes).2 ⟨_, _, hread⟩, hread, hfine, by rw [hlength]; omega, ?_⟩
  rw [load_of_encodes hread, hnone]
  dsimp only
  rw [if_neg (by omega), hlength]

end Store

end PipeSheet.Formula
