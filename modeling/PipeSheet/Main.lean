import PipeSheet.Command.Line
/-!
# PipeSheet.Main

**The program.** It runs the command of its arguments on the files of the system.

Two things are left out. The log says what is done while it is done, when it is asked for, and no
result depends on it. And deep recursions need a stack that grows: what they return does not depend
on it either, as in `PipeSheet.Descent`.
-/

namespace PipeSheet

/-- The numbers under which a directory in the place of a file is reported: one number, with either
sign. -/
def directoryCodes : List UInt32 := [21, 0 - 21]

/-- The cause of an error that the system reports. -/
def SystemError.ofSystem (e : IO.Error) : SystemError :=
  match e with
  | .noFileOrDirectory .. => .notFound
  | .inappropriateType _ code _ =>
    if code ∈ directoryCodes then .isADirectory else .notADirectory
  | e => .other (toString e)

/-- The files of the system. -/
def systemFiles : FileAccess IO where
  read path := do
    match ← (IO.FS.readBinFile path).toBaseIO with
    | .ok bytes => return .ok bytes.toList
    | .error e => return .error (.ofSystem e)
  write path bytes := do
    match ← (IO.FS.writeBinFile path ⟨bytes.toArray⟩).toBaseIO with
    | .ok () => return .ok ()
    | .error e => return .error (.ofSystem e)

end PipeSheet

open PipeSheet in
/-- Runs the program; the error output is coloured on a terminal. -/
def main (args : List String) : IO UInt32 := do
  let colored := ColorMode.auto.colored (← (← IO.getStderr).isTty)
  let outcome ← Command.runLine systemFiles colored args
  IO.print outcome.out
  IO.eprint outcome.err
  return UInt32.ofNat outcome.status
