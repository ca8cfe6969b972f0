import PipeSheet.Command.Basic
import PipeSheet.Proofs.Files.Directory
import PipeSheet.Proofs.Formula.Extract
import PipeSheet.Proofs.Formula.OperandText
import PipeSheet.Proofs.Formula.Records
import PipeSheet.Proofs.Table.Block
/-!
# PipeSheet.Proofs.Command.Dump

**A dump of a cell shows the formula of the cell.**

What is written of a cell is its formula and nothing else: the nodes are those that reading the
formula alone gives, whatever else the file says. So the bytes load, and the loaded formula has the
tree of the formula in the table.

Ids have 32 bits, and a machine stops when it runs out of them while it reads the file. That it did
not is an assumption here.

* `FileAccess.AllOrNothing`: what is asked of access to files;
* `Formula.load_dump_of_read`: a formula that is read alone is loaded from its dump;
* `Command.dumpOf_spec`: the bytes that are written of a source;
* `Command.runIn`: a command in a state of the files, step by step;
* `Command.shows_dumpFormula`: the file that is written, and what is shown of it.
-/

namespace PipeSheet

open Formula (Node NodeId Operand Store Tree)

/-! ### Nodes that have records -/

theorem Position.fits_of_ofName? {text : List Char} {q : Position} (h : ofName? text = some q) :
    q.row < 2 ^ 64 ∧ q.col < 2 ^ 64 :=
  have hnamed := named_of_ofName? h
  ⟨hnamed.row_lt, Nat.lt_trans hnamed.col_lt (by decide)⟩

namespace Formula

theorem Operand.fits_node {text : List Char} {o : Operand} (h : ofText? text = some o) :
    o.node.Fits := by
  unfold ofText? at h
  split at h
  · cases h
    exact trivial
  · obtain ⟨q, hq, rfl⟩ := Option.map_eq_some_iff.1 h
    exact Position.fits_of_ofName? hq

/-- The operands of a formula have rows and columns of at most 64 bits. -/
theorem fits_of_mem_scan {stop : Span} {lexemes : List Lexeme} :
    ∀ o ∈ (scan stop lexemes).1, o.node.Fits := by
  intro o ho
  obtain ⟨t, _, htext⟩ := exists_of_mem_scan ho
  exact Operand.fits_node htext

theorem fits_of_mem_block {first : Nat} {operands : List Operand}
    (h : ∀ o ∈ operands, o.node.Fits) : ∀ node ∈ block first operands, node.Fits := by
  intro node hnode
  rcases List.mem_append.1 hnode with hnode | hnode
  · obtain ⟨o, ho, rfl⟩ := List.mem_map.1 hnode
    exact h o ho
  · obtain ⟨j, _, rfl⟩ := List.mem_map.1 hnode
    exact trivial

/-- A formula that is read alone is loaded from its dump. -/
theorem load_dump_of_read {source : List Char} {root : NodeId} {store : Store} {bytes : List UInt8}
    (h : read source .empty = (.ok root, store)) (hsize : store.size < 2 ^ 32)
    (hdump : store.dump root = .ok bytes) : Store.load bytes = .ok (store, root) := by
  have hfirst : store.ChildrenFirst :=
    childrenFirst_of_read Store.childrenFirst_empty h (Nat.le_of_lt hsize)
  have hfits : ∀ node ∈ store.nodes, node.Fits := by
    obtain ⟨operands, hoperands, _, _, rfl⟩ := exists_block_of_read h
    have hall : ∀ o ∈ (operandsOf source).1, o.node.Fits := fits_of_mem_scan
    rw [hoperands] at hall
    intro node hnode
    rw [← Array.mem_toList_iff] at hnode
    exact fits_of_mem_block hall node hnode
  have hroot : root.index < store.size := by
    have hlast := index_root_of_read h (Nat.le_of_lt hsize)
    omega
  have hload := Store.load_dump (Nat.lt_trans hsize (by decide)) hfits hfirst hroot
    (Store.dumps_of_dump hdump) []
  rwa [List.append_nil] at hload

end Formula

/-! ### Access to files -/

section Files

variable {σ : Type}

/-- What reading a file answers. -/
def FileAccess.contents (files : FileAccess (StateM σ)) (s : σ) (path : String) :
    Except SystemError (List UInt8) :=
  ((files.read path).run s).1

/-- Reading changes nothing, and neither does a write that fails, whether the file could not be
opened or not be written. -/
structure FileAccess.AllOrNothing (files : FileAccess (StateM σ)) : Prop where
  read_eq : ∀ path s, ((files.read path).run s).2 = s
  write_eq : ∀ path bytes s s' e, (files.write path bytes).run s = (.error e, s') → s' = s

namespace Directory

variable {d : Directory} {path : String}

theorem contents_access : access.contents d path = d.read path := rfl

theorem run_write (bytes : List UInt8) :
    (access.write path bytes).run d =
      match d.write path bytes with
      | .ok d' => (.ok (), d')
      | .error e => (.error e, d) := by
  have hwrite : (access.write path bytes).run d =
      StateT.run (match d.write path bytes with
        | .ok d' => do
          set d'
          return .ok ()
        | .error e => return .error e) d := rfl
  rw [hwrite]
  cases d.write path bytes with
  | ok d' => rfl
  | error e => rfl

/-- In a directory that is a value, files are written as a whole. -/
theorem allOrNothing_access : access.AllOrNothing := by
  refine ⟨fun _ _ => rfl, fun path bytes d d' e h => ?_⟩
  rw [run_write] at h
  split at h
  · cases h
  · cases h
    rfl

end Directory

end Files

namespace Command

/-! ### The bytes of a cell -/

section Bytes

variable {source : List Char} {cell : Position} {bytes : List UInt8} {nodes : Nat}

/-- A dump succeeds on a source that reads, for a cell that is a formula. -/
theorem exists_of_dumpOf (h : dumpOf source cell = .ok (bytes, nodes)) :
    ∃ t store f out root, Table.read source .empty = (.ok t, store) ∧
      t.get? cell = some (.formula f) ∧ store.extract? f.root = some (out, root) ∧
      out.dump root = .ok bytes ∧ nodes = out.size := by
  unfold dumpOf at h
  split at h
  · cases h
  · next t store hread =>
    split at h
    · next f hcell =>
      split at h
      · cases h
      · next out root hextract =>
        split at h
        · next w hdump =>
          cases h
          exact ⟨t, store, f, out, root, hread, hcell, hextract, hdump, rfl⟩
        · cases h
    · cases h

/-- The bytes of a cell are a dump of its formula, as reading the formula alone gives it. -/
theorem dumpOf_spec (h : dumpOf source cell = .ok (bytes, nodes))
    (hids : (Table.read source .empty).2.size < 2 ^ 32) :
    ∃ t store f tree piece loaded root,
      Table.read source .empty = (.ok t, store) ∧ t.get? cell = some (.formula f) ∧
      store.tree? f.root = some tree ∧ pieceAt? source cell = some piece ∧
      Formula.read (Text.trim piece.text).tail .empty = (.ok root, loaded) ∧
      Store.load bytes = .ok (loaded, root) ∧ loaded.tree? root = some tree ∧
      loaded.size = 2 * tree.operands.length - 1 ∧ nodes = loaded.size ∧
      root.index + 1 = loaded.size := by
  obtain ⟨t, store, f, out, r, hread, hcell, hextract, hdump, rfl⟩ := exists_of_dumpOf h
  rw [hread] at hids
  have hfirst : store.ChildrenFirst :=
    Table.childrenFirst_of_read Formula.Store.childrenFirst_empty hread (Nat.le_of_lt hids)
  obtain ⟨piece, first, last, hpiece, hformula, hext⟩ := Table.exists_read_of_get? hread hcell
  have hlast : last.size < 2 ^ 32 := Nat.lt_of_le_of_lt hext.size_le hids
  obtain ⟨loaded, root, halone, hextract'⟩ :=
    Formula.extract?_of_read hformula hext hfirst (Nat.le_of_lt hlast)
  cases hextract'.symm.trans hextract
  -- The formula alone takes as many nodes as among the others.
  have hsize := Formula.size_of_read halone
  have hthere := Formula.size_of_read hformula
  rw [Formula.Store.size_empty, Nat.zero_add] at hsize
  have hroom : out.size < 2 ^ 32 := by omega
  have hreads := Formula.read_spec halone (Nat.le_of_lt hroom)
  have htree := (Formula.read_spec hformula (Nat.le_of_lt hlast)).extends hext
  rw [← Tree.operands_sum hreads.ne_nil] at hsize
  exact ⟨t, store, f, _, piece, out, r, hread, hcell, htree.tree?_eq, hpiece, halone,
    Formula.load_dump_of_read halone hroom hdump, hreads.tree?_eq, hsize, rfl,
    Formula.index_root_of_read halone (Nat.le_of_lt hroom)⟩

end Bytes

/-! ### Steps of a command -/

section Steps

variable {σ α β : Type}

/-- What a command answers in a state of the files, and the state after it. -/
def runIn (s : σ) (m : ExceptT Failure (StateM σ) α) : Except Failure α × σ :=
  m.run.run s

variable {files : FileAccess (StateM σ)} {s : σ} {path cellName : String} {output : Option String}

theorem runIn_bind (m : ExceptT Failure (StateM σ) α) (f : α → ExceptT Failure (StateM σ) β) :
    runIn s (m >>= f) =
      match runIn s m with
      | (.ok a, s) => runIn s (f a)
      | (.error e, s) => (.error e, s) := by
  have hbind : runIn s (m >>= f) = (ExceptT.bindCont f (runIn s m).1).run (runIn s m).2 := rfl
  rw [hbind]
  generalize runIn s m = r
  obtain ⟨_ | _, _⟩ := r
  · rfl
  · rfl

theorem runIn_except (x : Except Failure α) : runIn s (liftM x) = (x, s) := by
  cases x with
  | ok a => rfl
  | error e => rfl

theorem runIn_lift (m : StateM σ α) : runIn s (liftM m) = (.ok (m.run s).1, (m.run s).2) := rfl

theorem runIn_readBytes (h : files.AllOrNothing) : runIn s (readBytes files path) =
    match files.contents s path with
    | .ok bytes => (.ok bytes, s)
    | .error e => (.error (.read path e), s) := by
  rw [readBytes, runIn_bind, runIn_lift, h.read_eq, ← FileAccess.contents]
  cases files.contents s path with
  | ok bytes => rfl
  | error e => rfl

theorem runIn_readText (h : files.AllOrNothing) : runIn s (readText files path) =
    match files.contents s path with
    | .ok bytes => (.ok (Text.Utf8.decode bytes), s)
    | .error e => (.error (.read path e), s) := by
  rw [readText, runIn_bind, runIn_readBytes h]
  cases files.contents s path with
  | ok bytes => rfl
  | error e => rfl

/-- The name of the file that a dump is written to. -/
def dumpName (output : Option String) (cell : Position) : String :=
  output.getD (toString cell ++ ".ast")

theorem runIn_dumpFormula (h : files.AllOrNothing) :
    runIn s (dumpFormula files path cellName output) =
      match Position.ofName? cellName.toList with
      | none => (.error (.invalidCellName cellName), s)
      | some cell =>
        match files.contents s path with
        | .error e => (.error (.read path e), s)
        | .ok content =>
          match dumpOf (Text.Utf8.decode content) cell with
          | .error e => (.error e, s)
          | .ok (bytes, nodes) =>
            match (files.write (dumpName output cell) bytes).run s with
            | (.error e, _) => (.error (.write (dumpName output cell) e), s)
            | (.ok (), s') => (.ok ⟨cell, dumpName output cell, nodes⟩, s') := by
  unfold dumpFormula
  cases Position.ofName? cellName.toList with
  | none => rfl
  | some cell =>
      dsimp only
      rw [runIn_bind, runIn_readText h]
      cases files.contents s path with
      | error e => rfl
      | ok content =>
          dsimp only
          rw [runIn_bind, runIn_except]
          cases dumpOf (Text.Utf8.decode content) cell with
          | error e => rfl
          | ok result =>
              obtain ⟨bytes, nodes⟩ := result
              dsimp only
              rw [runIn_bind, ← dumpName, runIn_lift]
              cases hwrite : (files.write (dumpName output cell) bytes).run s with
              | mk written s' =>
                  cases written with
                  | ok done => rfl
                  | error e =>
                      obtain rfl := h.write_eq _ _ _ _ _ hwrite
                      rfl

theorem runIn_showDump (h : files.AllOrNothing) : runIn s (showDump files path) =
    match files.contents s path with
    | .ok bytes => (describeDump bytes, s)
    | .error e => (.error (.read path e), s) := by
  rw [showDump, runIn_bind, runIn_readBytes h]
  cases files.contents s path with
  | ok bytes => rfl
  | error e => rfl

end Steps

/-! ### Dumps -/

variable {d d' : Directory} {path cellName : String} {output : Option String}
  {summary : DumpSummary}

/-- In a directory, the text of a file is read without a change. -/
theorem runIn_readText_of_read {bytes : List UInt8} (hfile : d.read path = .ok bytes) :
    runIn d (readText Directory.access path) = (.ok (Text.Utf8.decode bytes), d) := by
  rw [runIn_readText Directory.allOrNothing_access, Directory.contents_access, hfile]

/-- A dump that succeeds has read a source, and has written the bytes of a cell. -/
theorem exists_of_dumpFormula
    (h : runIn d (dumpFormula Directory.access path cellName output) = (.ok summary, d')) :
    ∃ content bytes, d.read path = .ok content ∧
      Position.ofName? cellName.toList = some summary.cell ∧
      dumpOf (Text.Utf8.decode content) summary.cell = .ok (bytes, summary.nodes) ∧
      d.write summary.output bytes = .ok d' := by
  rw [runIn_dumpFormula Directory.allOrNothing_access] at h
  split at h
  · cases h
  · next cell hcell =>
    split at h
    · cases h
    · next content hread =>
      split at h
      · cases h
      · next bytes nodes hdump =>
        rw [Directory.run_write] at h
        cases hwrite : d.write (dumpName output cell) bytes with
        | error e =>
            rw [hwrite] at h
            cases h
        | ok d'' =>
            rw [hwrite] at h
            cases h
            exact ⟨content, bytes, hread, hcell, hdump, hwrite⟩

/-- After a dump the file that was written loads, as what reading the formula of the cell alone
gives, and it shows the tree that the formula has in the table. An id has 32 bits, so the store must
have had an id of its own for every node of the source. -/
theorem shows_dumpFormula
    (h : runIn d (dumpFormula Directory.access path cellName output) = (.ok summary, d'))
    (hids : ∀ content, d.read path = .ok content →
      (Table.read (Text.Utf8.decode content) .empty).2.size < 2 ^ 32) :
    ∃ content t store f tree piece bytes loaded root,
      d.read path = .ok content ∧ Position.ofName? cellName.toList = some summary.cell ∧
      Table.read (Text.Utf8.decode content) .empty = (.ok t, store) ∧
      t.get? summary.cell = some (.formula f) ∧ store.tree? f.root = some tree ∧
      pieceAt? (Text.Utf8.decode content) summary.cell = some piece ∧
      d'.read summary.output = .ok bytes ∧ Store.load bytes = .ok (loaded, root) ∧
      loaded.tree? root = some tree ∧
      runIn d' (showDump Directory.access summary.output) = (.ok (countLine loaded ++
        ("Root: " ++ root.detail ++ "\n" ++ String.ofList tree.render ++ "\n")), d') ∧
      loaded.size = 2 * tree.operands.length - 1 ∧ summary.nodes = loaded.size ∧
      root.index + 1 = loaded.size ∧
      Formula.read (Text.trim piece.text).tail .empty = (.ok root, loaded) := by
  obtain ⟨content, bytes, hread, hcell, hdump, hwrite⟩ := exists_of_dumpFormula h
  obtain ⟨t, store, f, tree, piece, loaded, root, htable, hformula, htree, hpiece, halone, hload,
    hloaded, hsize, hnodes, hroot⟩ := dumpOf_spec hdump (hids content hread)
  have hwritten := Directory.read_of_write hwrite
  refine ⟨content, t, store, f, tree, piece, bytes, loaded, root, hread, hcell, htable, hformula,
    htree, hpiece, hwritten, hload, hloaded, ?_, hsize, hnodes, hroot, halone⟩
  have hrender : loaded.render? root = some tree.render := by
    rw [Store.render?, hloaded]
    rfl
  rw [runIn_showDump Directory.allOrNothing_access, Directory.contents_access, hwritten]
  dsimp only
  rw [describeDump, hload]
  dsimp only
  rw [rootLines, hrender]
  rfl

/-- The second formula of a file, between two others. -/
theorem shows_dumpFormula_of_neighbours :
    let d : Directory := ⟨[(["t"], .file ("=1+2|=A0+7\n=B0".toList.map fun c => c.toUInt8))]⟩
    ∃ summary d' text,
      runIn d (dumpFormula Directory.access "t" "B0" (some "out")) = (.ok summary, d') ∧
      runIn d' (showDump Directory.access summary.output) = (.ok text, d') := by
  intro d
  have hread : d.read "t" = .ok ("=1+2|=A0+7\n=B0".toList.map fun c => c.toUInt8) := by
    decide +kernel
  have hids : ∀ content, d.read "t" = .ok content →
      (Table.read (Text.Utf8.decode content) .empty).2.size < 2 ^ 32 := by
    intro content hcontent
    cases hread.symm.trans hcontent
    decide +kernel
  have hok : (runIn d (dumpFormula Directory.access "t" "B0" (some "out"))).1.isOk = true := by
    decide +kernel
  obtain ⟨summary, d', hrun⟩ : ∃ summary d',
      runIn d (dumpFormula Directory.access "t" "B0" (some "out")) = (.ok summary, d') := by
    generalize runIn d (dumpFormula Directory.access "t" "B0" (some "out")) = r at hok
    obtain ⟨_ | summary, d'⟩ := r
    · cases hok
    · exact ⟨summary, d', rfl⟩
  obtain ⟨_, _, _, _, _, _, _, _, _, _, _, _, _, _, _, _, _, _, hshow, _⟩ :=
    shows_dumpFormula hrun hids
  exact ⟨summary, d', _, hrun, hshow⟩

end Command

end PipeSheet
