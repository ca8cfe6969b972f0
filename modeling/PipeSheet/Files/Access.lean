/-!
# PipeSheet.Files.Access

**A command reaches files only by reading and writing whole ones.**

The two operations are a value, `FileAccess m`, that a command takes as an argument. On a terminal
they are those of the operating system; for a directory that is itself a value they are functions on
it, and the command is then a function from directories to directories.

* `SystemError`: why an operation fails, with the system's wording;
* `FileAccess`: the two operations.
-/

namespace PipeSheet

/-- Why a file was not read or written. -/
inductive SystemError where
  | notFound
  | notADirectory
  | isADirectory
  /-- Anything else, by the system's own words. -/
  | other (text : String)
  deriving DecidableEq, Repr

/-- The system's words for an error. -/
def SystemError.message : SystemError → String
  | notFound => "No such file or directory (os error 2)"
  | notADirectory => "Not a directory (os error 20)"
  | isADirectory => "Is a directory (os error 21)"
  | other text => text

/-- Reading and writing whole files by their paths. -/
structure FileAccess (m : Type → Type) where
  read : String → m (Except SystemError (List UInt8))
  write : String → List UInt8 → m (Except SystemError Unit)

end PipeSheet
