/-
Files and directories as a value.

The commands read and write files. Here the files are a value, so that what a command does to them
can be stated and tested. A path leads from a directory through directories: each element but the
last has to be one, whatever the elements after it are.
-/
import Offside.Path

set_option autoImplicit false

namespace Offside

/-- What a path may lead to. -/
inductive Entry
  | file (content : Text)
  | directory
  deriving DecidableEq, Repr

/-- Why a path cannot be used. -/
inductive PathError
  | missing
  | isDirectory
  | notDirectory
  /-- What only a real system can say. -/
  | other (reason : Text)
  deriving DecidableEq, Repr

namespace PathError

def message : PathError → Text
  | missing => "no such file or directory"
  | isDirectory => "is a directory"
  | notDirectory => "not a directory"
  | other reason => reason

end PathError

/-- The step of reading or writing a file that failed. -/
inductive FileStep
  | opening
  | reading
  deriving DecidableEq, Repr

/-- A file that could not be read or written. -/
structure FileError where
  step : FileStep
  path : Text
  error : PathError
  deriving DecidableEq, Repr

namespace FileError

def message (e : FileError) : Text :=
  (match e.step with
    | .opening => "open "
    | .reading => "read ") ++ e.path ++ ": " ++ e.error.message

end FileError

/-- Entries by the elements of their absolute paths, the innermost first. -/
structure Disk where
  entries : List (List Text × Entry) := []

namespace Disk

def get? (d : Disk) (place : List Text) : Option Entry :=
  if place.isEmpty then some .directory else d.entries.lookup place

def put (d : Disk) (place : List Text) (e : Entry) : Disk :=
  { entries := (place, e) :: d.entries.filter fun entry => entry.1 ≠ place }

/-- The place that elements lead to. It need not exist, but what comes before it has to. -/
def walk (d : Disk) (place : List Text) : List Text → Except PathError (List Text)
  | [] => .ok place
  | element :: rest =>
    match d.get? place with
    | none => .error .missing
    | some (.file _) => .error .notDirectory
    | some .directory => d.walk (Path.enter element place) rest

/-- The place that a path leads to from a directory. The empty path leads nowhere. -/
def locate (d : Disk) (directory : List Text) (path : Text) : Except PathError (List Text) :=
  if path.isEmpty then .error .missing
  else d.walk (if Path.isAbsolute path then [] else directory) (Text.pieces Path.slash path)

def find (d : Disk) (directory : List Text) (path : Text) : Except PathError Entry := do
  match d.get? (← d.locate directory path) with
  | some e => .ok e
  | none => .error .missing

def read (d : Disk) (directory : List Text) (path : Text) : Except FileError Text :=
  match d.find directory path with
  | .ok (.file content) => .ok content
  | .ok .directory => .error ⟨.reading, path, .isDirectory⟩
  | .error e => .error ⟨.opening, path, e⟩

/-- Where a file with this path would be written. A path that ends in a slash means a directory. -/
def target (d : Disk) (directory : List Text) (path : Text) : Except PathError (List Text) := do
  let place ← d.locate directory (Text.trimEnd Path.isSlash path)
  if path.getLast? = some Path.slash ∨ d.get? place = some .directory then .error .isDirectory
  else .ok place

/-- Writes a file. Only a file in a directory that exists can be written. -/
def write (d : Disk) (directory : List Text) (path content : Text) : Except FileError Disk :=
  match d.target directory path with
  | .ok place => .ok (d.put place (.file content))
  | .error e => .error ⟨.opening, path, e⟩

/-! ## Laying out files -/

def makeDirectory (d : Disk) : List Text → Disk
  | [] => d
  | element :: outer => (d.makeDirectory outer).put (element :: outer) .directory

def putFile (d : Disk) (place : List Text) (content : Text) : Disk :=
  (d.makeDirectory place.tail).put place (.file content)

def remove (d : Disk) (place : List Text) : Disk :=
  { entries := d.entries.filter fun entry => !place.isSuffixOf entry.1 }

/-- The files below a directory with their content, by the path from there. -/
def files (d : Disk) (directory : List Text) : List (Text × Text) :=
  d.entries.filterMap fun (place, e) =>
    match e with
    | .file content =>
      if directory.isSuffixOf place then
        let inner := (place.take (place.length - directory.length)).reverse
        some (Text.join [Path.slash] inner, content)
      else none
    | .directory => none

end Disk

end Offside
