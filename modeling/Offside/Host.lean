/-
What the commands need from the system they run on.

Commands are written for any monad that offers these operations. The `Machine` is a system as a
value, with its files, its environment and what was printed; statements about commands are
statements about how they change a machine.
-/
import Offside.Disk

set_option autoImplicit false

namespace Offside

/-- A system that commands can run on. -/
class Host (m : Type → Type) where
  /-- The content of a file. -/
  read : Text → m (Except FileError Text)
  /-- Writes a file, or leaves everything as it is. -/
  write : Text → Text → m (Except FileError Unit)
  /-- Is there something at a path, and is it a directory? -/
  isDirectory : Text → m (Except PathError Bool)
  /-- The absolute path of the working directory. -/
  workingDirectory : m Text
  /-- The value of an environment variable, empty if it is not set. -/
  environment : Text → m Text
  /-- Do diagnostics go to a terminal? -/
  onTerminal : m Bool
  /-- Prints results. -/
  print : Text → m Unit
  /-- Prints diagnostics. -/
  report : Text → m Unit

/-- A system as a value. -/
structure Machine where
  disk : Disk := {}
  /-- The elements of the working directory, the innermost first. -/
  directory : List Text := []
  environment : List (Text × Text) := []
  terminal : Bool := false
  printed : Text := []
  reported : Text := []

namespace Machine

def read (path : Text) : StateM Machine (Except FileError Text) :=
  return (← get).disk.read (← get).directory path

def write (path content : Text) : StateM Machine (Except FileError Unit) := fun s =>
  match s.disk.write s.directory path content with
  | .ok disk => (.ok (), { s with disk })
  | .error e => (.error e, s)

def isDirectory (path : Text) : StateM Machine (Except PathError Bool) := do
  let s ← get
  return (s.disk.find s.directory path).map fun e => e = .directory

instance : Host (StateM Machine) where
  read := read
  write := write
  isDirectory := isDirectory
  workingDirectory := return Path.ofElements (← get).directory
  environment name := return ((← get).environment.lookup name).getD []
  onTerminal := return (← get).terminal
  print t := modify fun s => { s with printed := s.printed ++ t }
  report t := modify fun s => { s with reported := s.reported ++ t }

end Machine

end Offside
