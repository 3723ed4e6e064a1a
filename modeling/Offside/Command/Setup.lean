/-
What is settled before a command runs.

The configuration comes from the file that the command line names, or else from the nearest one: in
the working directory or above it. It decides, with the flags and the environment, how the command
logs and whether it colors its diagnostics.
-/
import Offside.Command.Line
import Offside.Config.Basic
import Offside.Digest.Blake2b
import Offside.Host

set_option autoImplicit false

namespace Offside

namespace Fault

def ofFileError (e : FileError) : Fault := plain e.message

end Fault

namespace Config

def fileName : Text := ".delight.yaml"

def pathIn (directory : List Text) : Text := Path.ofElements (fileName :: directory)

section
variable {m : Type → Type} [Monad m] [Host m]

def isFile (path : Text) : m Bool := do
  match ← Host.isDirectory path with
  | .ok directory => return !directory
  | .error _ => return false

def find? : List Text → m (Option Text)
  | [] => do if ← isFile (pathIn []) then return some (pathIn []) else return none
  | element :: outer => do
    if ← isFile (pathIn (element :: outer)) then return some (pathIn (element :: outer))
    else find? outer

/-- Why there is no configuration: the file cannot be read, or it is rejected. -/
inductive LoadError
  | unreadable (path : Text) (e : FileError)
  | rejected (path : Text) (r : Rejection)
  deriving DecidableEq, Repr

def LoadError.fault : LoadError → Fault
  | unreadable path e => .badConfig .configRead path (some (.ofFileError e))
  | rejected path r => r.fault path

def load (path : Text) : m (Except LoadError Config) := do
  match ← Host.read path with
  | .error e => return .error (.unreadable path e)
  | .ok text => match parse path text with
    | .ok c => return .ok c
    | .error r => return .error (.rejected path r)

/-- The configuration to use: that of the given file, or else of the nearest one, or else the
defaults. -/
def resolve (explicit : Text) : m (Except LoadError Config) := do
  if !explicit.isEmpty then load explicit
  else match ← find? (Path.elementsFrom [] (← Host.workingDirectory)) with
    | some path => load path
    | none => return .ok {}

end

end Config

/-- What a command runs with. -/
structure Setup where
  config : Config := {}
  verbosity : Verbosity := .silent
  color : Bool := false
  /-- What stands for a source in the stamp of its generated file. -/
  fingerprint : Text → Text := Text.fingerprint

namespace Setup

variable {m : Type → Type} [Monad m] [Host m]

/-- Settles the setup. It fails if the configuration does, or if it asks for a newer version. -/
def prepare (version : Text) (o : Options) : ExceptT Fault m Setup := do
  match ← (Config.resolve o.config : m _) with
  | .error e => throw e.fault
  | .ok config =>
    if let some f := config.versionFault? version then throw f
    let debug ← (Host.environment "DELIGHT_DEBUG" : m Text)
    let plain ← (Host.environment "NO_COLOR" : m Text)
    let terminal ← (Host.onTerminal : m Bool)
    return {
      config
      verbosity := if o.debug || !debug.isEmpty then .full else .silent
      color := !o.noColor && plain.isEmpty && config.colors terminal }

end Setup

end Offside
