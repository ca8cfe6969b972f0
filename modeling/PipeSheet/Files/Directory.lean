import PipeSheet.Files.Access
import PipeSheet.Text.Pieces
/-!
# PipeSheet.Files.Directory

**A working directory as a value.**

A directory maps paths, as lists of names, to files and folders. A path is followed name by name:
every name but the last has to be a folder, `.` stays and `..` goes up. Nothing outside the
directory is known, except that it is a folder too.

* `Directory.find`: what a path leads to;
* `Directory.access`: reading and writing, as functions on directories;
* `Directory.changes`: the files in which one directory differs from another.
-/

namespace PipeSheet

/-- What a path may name. -/
inductive Entry where
  | file (bytes : List UInt8)
  | folder
  deriving DecidableEq, Repr

/-- The files and folders below the working directory. -/
structure Directory where
  entries : List (List String × Entry) := []
  deriving DecidableEq, Repr

/-- What a path leads to. -/
inductive Target where
  | folder
  | file (path : List String) (bytes : List UInt8)
  /-- Nothing, in a folder that exists. -/
  | absent (path : List String)
  deriving DecidableEq, Repr

namespace Directory

/-- The entry at a path below the directory; the empty path is the directory itself. -/
def lookup? (d : Directory) (path : List String) : Option Entry :=
  if path = [] then some .folder else d.entries.lookup path

/-- Whether only steps that stay or go up are left. -/
def onlyDots (names : List String) : Bool :=
  names.all fun name => name = "" || name = "." || name = ".."

/-- Where some names lead from outside the directory. -/
def findOutside (names : List String) : Except SystemError Target :=
  if onlyDots names then .ok .folder else .error .notFound

/-- Where some names lead from a folder. -/
def findFrom (d : Directory) (here : List String) : List String → Except SystemError Target
  | [] => .ok .folder
  | name :: rest =>
    if name = "" ∨ name = "." then d.findFrom here rest
    else if name = ".." then
      if here = [] then findOutside rest else d.findFrom here.dropLast rest
    else
      match d.lookup? (here ++ [name]) with
      | some .folder => d.findFrom (here ++ [name]) rest
      | some (.file bytes) =>
        if rest = [] then .ok (.file (here ++ [name]) bytes) else .error .notADirectory
      | none => if rest = [] then .ok (.absent (here ++ [name])) else .error .notFound

/-- The names of a path. -/
def names (path : String) : List String :=
  (Text.pieces '/' path.toList).map String.ofList

/-- What a path leads to. The empty path leads nowhere, and a path that begins with a slash begins
outside the directory. -/
def find (d : Directory) (names : List String) : Except SystemError Target :=
  match names with
  | [""] => .error .notFound
  | "" :: rest => findOutside rest
  | names => d.findFrom [] names

/-- The bytes of the file at a path. -/
def read (d : Directory) (path : String) : Except SystemError (List UInt8) :=
  match d.find (names path) with
  | .ok (.file _ bytes) => .ok bytes
  | .ok .folder => .error .isADirectory
  | .ok (.absent _) => .error .notFound
  | .error e => .error e

/-- The directory with a file put in. -/
def put (d : Directory) (path : List String) (bytes : List UInt8) : Directory :=
  ⟨(path, .file bytes) :: d.entries.filter fun entry => entry.1 ≠ path⟩

/-- The names without the empty ones at the end. -/
def withoutTrailing (names : List String) : List String :=
  (names.reverse.dropWhile (· = "")).reverse

/-- Writes a file. A path that ends in a slash asks for a folder, and no file can be written
there. -/
def write (d : Directory) (path : String) (bytes : List UInt8) : Except SystemError Directory :=
  let all := names path
  let trimmed := withoutTrailing all
  if trimmed ≠ [] ∧ trimmed ≠ all then
    match d.find trimmed with
    | .ok _ => .error .isADirectory
    | .error e => .error e
  else
    match d.find all with
    | .ok (.file path _) => .ok (d.put path bytes)
    | .ok (.absent path) => .ok (d.put path bytes)
    | .ok .folder => .error .isADirectory
    | .error e => .error e

/-- Reading and writing in a directory that is the state of the computation. -/
def access : FileAccess (StateM Directory) where
  read path := do return (← get).read path
  write path bytes := do
    match (← get).write path bytes with
    | .ok d =>
      set d
      return .ok ()
    | .error e => return .error e

/-- The files of a directory that another one does not have, or has with other bytes. -/
def changes (before after : Directory) : List (List String × List UInt8) :=
  after.entries.filterMap fun (path, entry) =>
    match entry with
    | .file bytes => if before.lookup? path = some (.file bytes) then none else some (path, bytes)
    | .folder => none

/-- A file that was put in is there. -/
theorem lookup?_put_self {d : Directory} {path : List String} (h : path ≠ []) (bytes : List UInt8) :
    (d.put path bytes).lookup? path = some (.file bytes) := by
  simp [lookup?, put, h]

end Directory

end PipeSheet
