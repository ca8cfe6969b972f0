import Mathlib.Data.List.Forall2
import PipeSheet.Formula.Dump
import PipeSheet.Proofs.Number.Bits
/-!
# PipeSheet.Proofs.Formula.Records

**Reading accepts the dumps, and nothing else.**

Every number has a fixed width, so a number, a record and a list of records that is announced by its
length end where they end: what reading takes off the front is what writing put there, and whatever
stands behind it is left alone. What remains to be checked are the ids, and the checks refuse
exactly the stores that pushing cannot make.

Reading keeps no NaN payload. So a dump is spoken of up to payloads (`Store.Dumps`): of a store
without a NaN it is the one that is written.

* `Node.IsRecord`, `Store.Dumps`: what is written of a node and of a store;
* `readNode_record`, `exists_record_of_readNode`: reading one record;
* `Encodes`, `readRecords_eq_ok_iff`: reading a root and the list of nodes;
* `Store.load_eq_ok_iff`: reading a store.
-/

namespace PipeSheet.Formula

/-! ### Numbers -/

/-- What is taken off the front are the bytes of the number. -/
theorem eq_of_takeNat? {width n : Nat} {bytes rest : List UInt8}
    (h : takeNat? width bytes = some (n, rest)) :
    n < 256 ^ width ∧ bytes = leBytes width n ++ rest := by
  induction width generalizing n bytes with
  | zero =>
      cases h
      exact ⟨by decide, rfl⟩
  | succ width ih =>
      cases bytes with
      | nil => cases h
      | cons byte bytes =>
          obtain ⟨⟨m, _⟩, htake, hn⟩ := Option.map_eq_some_iff.1 h
          obtain ⟨rfl, rfl⟩ := Prod.mk.inj hn
          obtain ⟨hm, rfl⟩ := ih htake
          have hbyte := byte.toNat_lt
          refine ⟨?_, ?_⟩
          · rw [Nat.pow_succ]
            omega
          · have hlow : UInt8.ofNat (byte.toNat + 256 * m) = byte := by
              refine UInt8.toNat_inj.1 ?_
              rw [UInt8.toNat_ofNat']
              omega
            have hhigh : (byte.toNat + 256 * m) / 256 = m := by omega
            rw [leBytes, hlow, hhigh]
            rfl

theorem readNat_leBytes {width n : Nat} (h : n < 256 ^ width) (rest : List UInt8) :
    readNat width (leBytes width n ++ rest) = .ok (n, rest) := by
  rw [readNat, takeNat?_leBytes h]

theorem eq_of_readNat {width n : Nat} {bytes rest : List UInt8}
    (h : readNat width bytes = .ok (n, rest)) :
    n < 256 ^ width ∧ bytes = leBytes width n ++ rest := by
  unfold readNat at h
  split at h
  · next result htake =>
    cases h
    exact eq_of_takeNat? htake
  · cases h

theorem ok_bind {ε α β : Type} (a : α) (f : α → Except ε β) : (Except.ok a >>= f) = f a := rfl

theorem exists_of_bind_eq_ok {ε α β : Type} {x : Except ε α} {f : α → Except ε β} {b : β}
    (h : x >>= f = .ok b) : ∃ a, x = .ok a ∧ f a = .ok b := by
  cases x with
  | error e => cases h
  | ok a => exact ⟨a, rfl, h⟩

/-! ### Records -/

/-- The rows and columns of a node have at most 64 bits. -/
def Node.Fits : Node → Prop
  | .ref target => target.row < 2 ^ 64 ∧ target.col < 2 ^ 64
  | _ => True

/-- The record of a node, where a NaN may have any payload. -/
inductive Node.IsRecord : Node → List UInt8 → Prop
  | written (node : Node) : IsRecord node node.bytes
  | payload {bits : UInt64} : Float.ofBits bits = Number.nan →
      IsRecord (.number Number.nan) (leBytes 4 0 ++ leBytes 8 bits.toNat)

/-- Only a NaN has other records than the one that is written. -/
theorem Node.IsRecord.eq_bytes {node : Node} {record : List UInt8} (h : node.IsRecord record)
    (hnan : node ≠ .number Number.nan) : record = node.bytes := by
  cases h with
  | written => rfl
  | payload _ => exact absurd rfl hnan

/-- A number may be written by all bits that denote it. -/
theorem isRecord_number (bits : UInt64) :
    Node.IsRecord (.number (Float.ofBits bits)) (leBytes 4 0 ++ leBytes 8 bits.toNat) := by
  by_cases hnan : Float.ofBits bits = Number.nan
  · rw [hnan]
    exact .payload hnan
  · have h := Node.IsRecord.written (.number (Float.ofBits bits))
    rwa [Node.bytes, Number.toBits_ofBits hnan] at h

theorem readNode_number (bits : UInt64) (rest : List UInt8) :
    readNode (leBytes 4 0 ++ leBytes 8 bits.toNat ++ rest) =
      .ok (.number (Float.ofBits bits), rest) := by
  have htag : 0 < 256 ^ 4 := by decide
  have hbits : bits.toNat < 256 ^ 8 := bits.toNat_lt
  simp only [readNode, List.append_assoc, readNat_leBytes htag, readNat_leBytes hbits, ok_bind]
  rw [UInt64.ofNat_toNat]
  rfl

/-- A record is read back, whatever follows it. -/
theorem readNode_record {node : Node} {record : List UInt8} (h : node.IsRecord record)
    (hfits : node.Fits) (rest : List UInt8) : readNode (record ++ rest) = .ok (node, rest) := by
  cases h with
  | payload hnan => rw [readNode_number, hnan]
  | written =>
      cases node with
      | number value => rw [Node.bytes, readNode_number, Number.ofBits_toBits]
      | ref target =>
          have htag : 1 < 256 ^ 4 := by decide
          have hrow : target.row < 256 ^ 8 := hfits.1
          have hcol : target.col < 256 ^ 8 := hfits.2
          simp only [readNode, Node.bytes, List.append_assoc, readNat_leBytes htag,
            readNat_leBytes hrow, readNat_leBytes hcol, ok_bind]
          rfl
      | plus lhs rhs =>
          have htag : 2 < 256 ^ 4 := by decide
          have hlhs : lhs.index < 256 ^ 4 := lhs.index_lt
          have hrhs : rhs.index < 256 ^ 4 := rhs.index_lt
          simp only [readNode, Node.bytes, List.append_assoc, readNat_leBytes htag,
            readNat_leBytes hlhs, readNat_leBytes hrhs, ok_bind]
          rw [NodeId.ofIndex_index, NodeId.ofIndex_index]
          rfl

/-- What is read is a record, and what follows it is left. -/
theorem exists_record_of_readNode {node : Node} {bytes rest : List UInt8}
    (h : readNode bytes = .ok (node, rest)) :
    node.Fits ∧ ∃ record, node.IsRecord record ∧ bytes = record ++ rest := by
  obtain ⟨⟨tag, bytes₁⟩, htag, hfields⟩ := exists_of_bind_eq_ok h
  obtain ⟨_, rfl⟩ := eq_of_readNat htag
  clear h htag
  dsimp only at hfields
  split at hfields
  -- A number.
  · obtain ⟨⟨bits, bytes₂⟩, hbits, hnode⟩ := exists_of_bind_eq_ok hfields
    obtain ⟨hlt, rfl⟩ := eq_of_readNat hbits
    cases hnode
    refine ⟨trivial, _, isRecord_number (UInt64.ofNat bits), ?_⟩
    rw [UInt64.toNat_ofNat_of_lt' hlt, List.append_assoc]
  -- A reference.
  · obtain ⟨⟨row, bytes₂⟩, hrow, hfields⟩ := exists_of_bind_eq_ok hfields
    obtain ⟨⟨col, bytes₃⟩, hcol, hnode⟩ := exists_of_bind_eq_ok hfields
    obtain ⟨hr, rfl⟩ := eq_of_readNat hrow
    obtain ⟨hc, rfl⟩ := eq_of_readNat hcol
    cases hnode
    refine ⟨⟨hr, hc⟩, _, .written _, ?_⟩
    rw [Node.bytes, List.append_assoc, List.append_assoc]
  -- A sum.
  · obtain ⟨⟨lhs, bytes₂⟩, hlhs, hfields⟩ := exists_of_bind_eq_ok hfields
    obtain ⟨⟨rhs, bytes₃⟩, hrhs, hnode⟩ := exists_of_bind_eq_ok hfields
    obtain ⟨hl, rfl⟩ := eq_of_readNat hlhs
    obtain ⟨hr, rfl⟩ := eq_of_readNat hrhs
    cases hnode
    refine ⟨trivial, _, .written _, ?_⟩
    rw [Node.bytes, NodeId.index_ofIndex hl, NodeId.index_ofIndex hr, List.append_assoc,
      List.append_assoc]
  · cases hfields

/-! ### Lists of records -/

theorem readNodes_records {nodes : List Node} {records : List (List UInt8)}
    (h : List.Forall₂ Node.IsRecord nodes records) (hfits : ∀ node ∈ nodes, node.Fits)
    (before : Array Node) (rest : List UInt8) :
    readNodes before nodes.length (records.flatten ++ rest) =
      .ok (before.toList ++ nodes).toArray := by
  induction h generalizing before with
  | nil => simp [readNodes]
  | @cons node record nodes records hrecord _ ih =>
      have hread :=
        readNode_record hrecord (hfits node List.mem_cons_self) (records.flatten ++ rest)
      rw [List.flatten_cons, List.append_assoc, List.length_cons, readNodes, hread]
      dsimp only
      rw [ih fun n hn => hfits n (List.mem_cons_of_mem node hn)]
      simp

theorem exists_records_of_readNodes {before nodes : Array Node} {count : Nat}
    {bytes : List UInt8} (h : readNodes before count bytes = .ok nodes) :
    ∃ added records rest, nodes.toList = before.toList ++ added ∧ added.length = count ∧
      (∀ node ∈ added, node.Fits) ∧ List.Forall₂ Node.IsRecord added records ∧
      bytes = records.flatten ++ rest := by
  induction count generalizing before bytes with
  | zero =>
      cases h
      exact ⟨[], [], bytes, by simp, rfl, by simp, .nil, rfl⟩
  | succ count ih =>
      rw [readNodes] at h
      split at h
      · next node rest hnode =>
        obtain ⟨hfit, record, hrecord, rfl⟩ := exists_record_of_readNode hnode
        obtain ⟨added, records, rest', hnodes, rfl, hfits, hrecords, rfl⟩ := ih h
        refine ⟨node :: added, record :: records, rest', by simpa using hnodes, rfl,
          List.forall_mem_cons.2 ⟨hfit, hfits⟩, .cons hrecord hrecords, ?_⟩
        rw [List.flatten_cons, List.append_assoc]
      · cases h

theorem forall₂_bytes (nodes : List Node) :
    List.Forall₂ Node.IsRecord nodes (nodes.map Node.bytes) := by
  rw [List.forall₂_map_right_iff]
  exact List.forall₂_same.2 fun node _ => .written node

/-- Bytes that begin with a root, the number of the nodes, and a record of each node. -/
structure Encodes (bytes : List UInt8) (root : Nat) (nodes : List Node) : Prop where
  root_lt : root < 2 ^ 64
  count_lt : nodes.length < 2 ^ 64
  fits : ∀ node ∈ nodes, node.Fits
  records : ∃ records, List.Forall₂ Node.IsRecord nodes records ∧
    leBytes 8 root ++ leBytes 8 nodes.length ++ records.flatten <+: bytes

/-- Root and nodes are read off the front of the bytes that begin with them. -/
theorem readRecords_eq_ok_iff {bytes : List UInt8} {root : Nat} {nodes : Array Node} :
    readRecords bytes = .ok (root, nodes) ↔ Encodes bytes root nodes.toList := by
  constructor
  · intro h
    obtain ⟨⟨r, bytes₁⟩, hroot, hrest⟩ := exists_of_bind_eq_ok h
    obtain ⟨⟨count, bytes₂⟩, hcount, hlist⟩ := exists_of_bind_eq_ok hrest
    obtain ⟨read, hnodes, hpair⟩ := exists_of_bind_eq_ok hlist
    cases hpair
    clear h hrest hlist
    -- From here on the bytes are root, count, records and the rest.
    obtain ⟨hr, rfl⟩ := eq_of_readNat hroot
    obtain ⟨hc, rfl⟩ := eq_of_readNat hcount
    obtain ⟨added, records, rest, hadded, rfl, hfits, hrecords, rfl⟩ :=
      exists_records_of_readNodes hnodes
    rw [show nodes.toList = added from hadded]
    refine ⟨hr, hc, hfits, records, hrecords, rest, ?_⟩
    simp only [List.append_assoc]
  · rintro ⟨hr, hc, hfits, records, hrecords, rest, rfl⟩
    have hnodes := readNodes_records hrecords hfits #[] rest
    rw [List.nil_append, Array.toArray_toList] at hnodes
    simp only [readRecords, List.append_assoc, readNat_leBytes (show root < 256 ^ 8 from hr),
      readNat_leBytes (show nodes.toList.length < 256 ^ 8 from hc), ok_bind, hnodes]
    rfl

/-- Without a NaN the records are those that are written. -/
theorem eq_map_bytes {nodes : List Node} {records : List (List UInt8)}
    (h : List.Forall₂ Node.IsRecord nodes records) (hnan : .number Number.nan ∉ nodes) :
    records = nodes.map Node.bytes := by
  induction h with
  | nil => rfl
  | @cons node record nodes records hrecord _ ih =>
      have hnode : node ≠ .number Number.nan := fun heq => hnan (heq ▸ List.mem_cons_self)
      rw [List.map_cons, hrecord.eq_bytes hnode,
        ← ih fun hmem => hnan (List.mem_cons_of_mem _ hmem)]

/-! ### Stores -/

namespace Store

variable {s : Store} {root : NodeId} {bytes w : List UInt8}

/-- The bytes are a dump of the store, where NaNs may have any payload. -/
def Dumps (s : Store) (root : NodeId) (w : List UInt8) : Prop :=
  ∃ records, List.Forall₂ Node.IsRecord s.nodes.toList records ∧
    w = leBytes 8 root.index ++ leBytes 8 s.size ++ records.flatten

/-- The checks of reading refuse exactly the stores in which children do not come first. -/
theorem firstDangling?_eq_none_iff (s : Store) :
    firstDangling? s.nodes.toList = none ↔ s.ChildrenFirst := by
  unfold firstDangling? ChildrenFirst
  rw [List.findSome?_eq_none_iff]
  constructor
  · intro h i node hnode child hchild
    have hmem : (node, i) ∈ s.nodes.toList.zipIdx := by
      rw [List.mem_zipIdx_iff_getElem?, Array.getElem?_toList]
      exact hnode
    have hfind := h (node, i) hmem
    rw [Option.map_eq_none_iff, Node.danglingChild?, List.find?_eq_none] at hfind
    simpa using hfind child hchild
  · rintro h ⟨node, i⟩ hmem
    rw [List.mem_zipIdx_iff_getElem?, Array.getElem?_toList] at hmem
    rw [Option.map_eq_none_iff, Node.danglingChild?, List.find?_eq_none]
    intro child hchild
    simpa using h i node hmem child hchild

/-- What is written is a dump. -/
theorem dumps_of_dump (h : s.dump root = .ok w) : s.Dumps root w := by
  unfold dump at h
  split at h
  · cases h
  · cases h
    exact ⟨_, forall₂_bytes _, by rw [List.flatMap_def]⟩

theorem index_lt_of_dump (h : s.dump root = .ok w) : root.index < s.size := by
  unfold dump at h
  split at h
  · cases h
  · next node hnode => exact index_lt_of_get? hnode

/-- Of a store without a NaN there is one dump. -/
theorem dump_eq_ok_of_dumps (hnan : .number Number.nan ∉ s.nodes) (hroot : root.index < s.size)
    (h : s.Dumps root w) : s.dump root = .ok w := by
  obtain ⟨records, hrecords, rfl⟩ := h
  have hnode : s.get? root = some s.nodes[root.index] := Array.getElem?_eq_getElem hroot
  rw [dump, hnode]
  dsimp only
  rw [eq_map_bytes hrecords (by simpa using hnan), List.flatMap_def]

/-- A dump begins with the nodes of the store, whatever follows it. -/
theorem Dumps.encodes (h : s.Dumps root w) (hsize : s.size < 2 ^ 64)
    (hfits : ∀ node ∈ s.nodes, node.Fits) (junk : List UInt8) :
    Encodes (w ++ junk) root.index s.nodes.toList := by
  obtain ⟨records, hrecords, rfl⟩ := h
  refine ⟨Nat.lt_trans root.index_lt (by decide), hsize, by simpa using hfits, records, hrecords,
    List.prefix_append _ _⟩

/-- A dump is read back, whatever follows it. -/
theorem load_dump (hsize : s.size < 2 ^ 64) (hfits : ∀ node ∈ s.nodes, node.Fits)
    (hfirst : s.ChildrenFirst) (hroot : root.index < s.size) (h : s.Dumps root w)
    (junk : List UInt8) : load (w ++ junk) = .ok (s, root) := by
  rw [load, readRecords_eq_ok_iff.2 (h.encodes hsize hfits junk)]
  dsimp only
  rw [(firstDangling?_eq_none_iff s).2 hfirst]
  dsimp only
  rw [if_pos ⟨hroot, root.index_lt⟩, NodeId.ofIndex_index]

/-- What is read was a dump of the store that is returned, with something behind it. -/
theorem exists_dump_of_load (h : load bytes = .ok (s, root)) :
    s.ChildrenFirst ∧ root.index < s.size ∧ ∃ w, s.Dumps root w ∧ w <+: bytes := by
  unfold load at h
  split at h
  · cases h
  · next r nodes hread =>
    split at h
    · cases h
    · next hfirst =>
      split at h
      · next hroot =>
        cases h
        obtain ⟨records, hrecords, hbytes⟩ := (readRecords_eq_ok_iff.1 hread).records
        have hindex := NodeId.index_ofIndex hroot.2
        refine ⟨(firstDangling?_eq_none_iff ⟨nodes⟩).1 hfirst, ?_, _, ⟨records, hrecords, rfl⟩, ?_⟩
        · rw [hindex]
          exact hroot.1
        · rw [hindex]
          exact hbytes
      · cases h

/-- Reading returns a store and a root exactly when its children come first, the root is one of its
nodes, and the bytes begin with a dump of it. Up to NaN payloads that dump is the one that is
written. -/
theorem load_eq_ok_iff (hsize : s.size < 2 ^ 64) (hfits : ∀ node ∈ s.nodes, node.Fits) :
    (load bytes = .ok (s, root) ↔
      s.ChildrenFirst ∧ root.index < s.size ∧ ∃ w, s.Dumps root w ∧ w <+: bytes) ∧
    (.number Number.nan ∉ s.nodes → (load bytes = .ok (s, root) ↔
      s.ChildrenFirst ∧ root.index < s.size ∧ ∃ w, s.dump root = .ok w ∧ w <+: bytes)) ∧
    (s.ChildrenFirst → ∀ w junk, s.dump root = .ok w → load (w ++ junk) = .ok (s, root)) := by
  have hiff : load bytes = .ok (s, root) ↔
      s.ChildrenFirst ∧ root.index < s.size ∧ ∃ w, s.Dumps root w ∧ w <+: bytes := by
    constructor
    · exact exists_dump_of_load
    · rintro ⟨hfirst, hroot, w, hw, junk, rfl⟩
      exact load_dump hsize hfits hfirst hroot hw junk
  refine ⟨hiff, fun hnan => ?_, fun hfirst w junk hw => ?_⟩
  · rw [hiff]
    refine and_congr_right fun _ => and_congr_right fun hroot => exists_congr fun w => ?_
    refine and_congr_left fun _ => ⟨dump_eq_ok_of_dumps hnan hroot, dumps_of_dump⟩
  · exact load_dump hsize hfits hfirst (index_lt_of_dump hw) (dumps_of_dump hw) junk

theorem load_eq_ok_iff_of_sum :
    ∃ (s : Store) (root : NodeId) (w : List UInt8), s.size = 3 ∧ s.dump root = .ok w ∧
      load (w ++ [7]) = .ok (s, root) := by
  let s : Store := ⟨#[.number 1, .ref ⟨0, 1⟩, .plus (.ofIndex 0) (.ofIndex 1)]⟩
  have hfits : ∀ node ∈ s.nodes, node.Fits := by
    simp [s, Node.Fits]
  have hfirst : s.ChildrenFirst := (firstDangling?_eq_none_iff s).1 (by decide)
  obtain ⟨w, hw⟩ : ∃ w, s.dump (.ofIndex 2) = .ok w := ⟨_, rfl⟩
  exact ⟨s, .ofIndex 2, w, rfl, hw,
    (@load_eq_ok_iff s (.ofIndex 2) [] (by decide) hfits).2.2 hfirst w [7] hw⟩

end Store

end PipeSheet.Formula
