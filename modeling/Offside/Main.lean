/-
The program.

Runs the command line on the real system. Everything that is decided is decided by `Command`; here
are only the operations that it needs, and the loop in which watched files are looked at again and
again.
-/
import Offside.Command.Run

set_option autoImplicit false

namespace Offside

namespace Program

def version : Text := "dev"

def bytes (t : Text) : ByteArray := ⟨t.toArray⟩

def native (path : Text) : String := (path.toString?).getD ""

def pathError (e : IO.Error) : PathError :=
  match e with
  | .noFileOrDirectory .. => .missing
  | .inappropriateType .. => .notDirectory
  | .permissionDenied .. => .other "permission denied"
  | e => .other (Text.ofString (toString e))

def isDirectory (path : Text) : IO (Except PathError Bool) := do
  if path.isEmpty then return .error .missing
  try
    let data ← ((← IO.currentDir) / native path).metadata
    return .ok (data.type == .dir)
  catch e => return .error (pathError e)

def fileError (path : Text) (directory : FileStep) (e : IO.Error) : IO FileError := do
  match ← isDirectory path with
  | .ok true => return ⟨directory, path, .isDirectory⟩
  | _ => return ⟨.opening, path, pathError e⟩

def read (path : Text) : IO (Except FileError Text) := do
  try return .ok (← IO.FS.readBinFile (native path)).toList
  catch e => return .error (← fileError path .reading e)

def write (path content : Text) : IO (Except FileError Unit) := do
  try
    IO.FS.writeBinFile (native path) (bytes content)
    return .ok ()
  catch e => return .error (← fileError path .opening e)

instance : Host IO where
  read := read
  write := write
  isDirectory := isDirectory
  workingDirectory := do return Text.ofString (← IO.currentDir).toString
  environment name := do return Text.ofString ((← IO.getEnv (native name)).getD "")
  onTerminal := do (← IO.getStderr).isTty
  print t := do (← IO.getStdout).write (bytes t)
  report t := do (← IO.getStderr).write (bytes t)

/-! ## Watching -/

/-- The source files at watched paths, with the time of their last change. -/
def sources (paths : List Text) : IO (List (String × IO.FS.SystemTime)) := do
  let mut found := []
  for path in paths do
    let place := (← IO.currentDir) / native path
    if ← place.isDir then
      for entry in ← place.readDir do
        if Path.extension (Text.ofString entry.fileName) = ".delight" then
          let shown := if path = "." then entry.fileName else native path ++ "/" ++ entry.fileName
          found := (shown, (← entry.path.metadata).modified) :: found
    else if Path.extension path = ".delight" then
      found := (native path, (← place.metadata).modified) :: found
  return found

/-- Translates watched files whenever they change. -/
partial def follow (s : Setup) (paths : List Text) (seen : List (String × IO.FS.SystemTime)) :
    IO Unit := do
  IO.sleep 200
  let now ← sources paths
  for (file, time) in now do
    if seen.lookup file != some time then Command.retranslate s (Text.ofString file)
  follow s paths now

end Program

end Offside

open Offside in
def main (args : List String) : IO UInt32 := do
  let args := args.map Text.ofString
  let code ← Command.run Program.version args
  if code = 0 then
    if let .ok { options, action := .watch paths } := CommandLine.parse args then
      if let .ok s ← (Setup.prepare Program.version options : ExceptT Fault IO Setup).run then
        Program.follow s paths (← Program.sources paths)
  return code.toUInt32
