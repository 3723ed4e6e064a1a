/-
The commands.

Each command goes through its files in order and stops at the first fault. A source that is rejected
is shown as a diagnostic at once; other faults are reported at the end, and every fault decides the
exit code.
-/
import Offside.Cbor
import Offside.Command.Setup
import Offside.Diagnostic
import Offside.Stamp

set_option autoImplicit false

namespace Offside

namespace Command

variable {m : Type → Type} [Monad m] [Host m]

def reportLines (lines : List Text) : m Unit := Host.report (lines.flatMap fun l => l ++ "\n")

def isShown (f : Fault) : Bool := f.isType .translate || f.isType .scan

def reportFault (f : Fault) : m Unit := do
  if !isShown f then reportLines ["Error: " ++ f.describe]

def readSource (file : Text) : ExceptT Fault m Text := do
  match ← (Host.read file : m _) with
  | .ok source => return source
  | .error e => throw (.unreadable file (some (.ofFileError e)))

def writeOutput (path content : Text) : ExceptT Fault m Unit := do
  match ← (Host.write path content : m _) with
  | .ok () => return ()
  | .error e => throw (.unwritable path (some (.ofFileError e)))

/-! ## Translating -/

def sourceFault (file : Text) (e : SourceError) : Fault :=
  match e with
  | .scan _ => .unscannable file (some (.ofSource e))
  | .parse _ => .untranslatable file (some (.ofSource e))

def generated (s : Setup) (file source : Text) (t : History) : Text :=
  if s.config.header then Stamp.header file source s.fingerprint ++ t.output else t.output

def translateFile (s : Setup) (file : Text) : ExceptT Fault m Text := do
  let source ← readSource file
  let t := SourceHistory.run s.config.indentation source
  (reportLines (s.verbosity.lines (t.records file)) : m Unit)
  match t.error?, t.history with
  | some e, _ =>
    (reportLines [(Fault.ofSource e).render s.color file source] : m Unit)
    throw (sourceFault file e)
  | none, .ok history => return generated s file source history
  | none, .error e => throw (sourceFault file (.scan e))

def outputPath (config : Config) (file : Text) : Text := Path.withExtension file config.extension

def deliver (s : Setup) (output : Text) (toStdout : Bool) (file content : Text) :
    ExceptT Fault m Unit :=
  if toStdout then (Host.print content : m Unit)
  else if !output.isEmpty then writeOutput output content
  else writeOutput (outputPath s.config file) content

def translateAll (s : Setup) (output : Text) (toStdout : Bool) : List Text → ExceptT Fault m Unit
  | [] => return ()
  | file :: rest => do
    let content ← translateFile s file
    deliver s output toStdout file content
    translateAll s output toStdout rest

def translate (s : Setup) (files : List Text) (output : Text) (toStdout : Bool) :
    ExceptT Fault m Unit := do
  if !output.isEmpty && 1 < files.length then
    throw (.plain ("--output needs exactly one input file, got " ++ Text.ofNat files.length))
  translateAll s output toStdout files

/-- Translates a file that has changed and says so. Faults are reported and do no more harm. -/
def retranslate (s : Setup) (file : Text) : m Unit := do
  let output := outputPath s.config file
  let job : ExceptT Fault m Unit := do writeOutput output (← translateFile s file)
  match ← job.run with
  | .ok () => Host.print ("translated " ++ file ++ " -> " ++ output ++ "\n")
  | .error f => reportFault f

/-! ## Checking -/

def checkFile (s : Setup) (file : Text) : ExceptT Fault m Unit := do
  let source ← readSource file
  let output := outputPath s.config file
  match ← (Host.read output : m _) with
  | .error e =>
    if e.error = .missing then throw (.outOfDate file output "generated file is missing")
    else throw (.unreadable output (some (.ofFileError e)))
  | .ok generated =>
    match Stamp.recorded? generated with
    | none => throw (.outOfDate file output "generated file has no delight header")
    | some recorded =>
      if recorded ≠ s.fingerprint source then
        throw (.outOfDate file output "source changed since the last translation")

def check (s : Setup) : List Text → ExceptT Fault m Unit
  | [] => return ()
  | file :: rest => do
    checkFile s file
    (Host.print ("ok\t" ++ file ++ "\n") : m Unit)
    check s rest

/-! ## Watching -/

def checkPaths (s : Setup) : List Text → ExceptT Fault m Unit
  | [] => return ()
  | path :: rest => do
    match ← (Host.isDirectory (Path.clean path) : m _) with
    | .error e =>
      let r : Report := { type := .watch, message := "cannot watch '" ++ path ++ "'" }
      throw (.reportOf (r.note "path" path) (.plain e.message))
    | .ok _ =>
      let r : Log.Record := { level := .debug, message := "watching", values := [("path", path)] }
      (reportLines (s.verbosity.lines [r]) : m Unit)
      checkPaths s rest

def watch (s : Setup) (paths : List Text) : ExceptT Fault m Unit := do
  checkPaths s paths
  (Host.print ("watching " ++ Text.ofNat paths.length ++ " path(s)\n") : m Unit)

/-! ## Tokens -/

def tokenLine (t : Token) : Text :=
  let text := if t.raw then "raw " ++ t.text.quoted else t.text
  Text.join "\t" [Text.ofInt t.line, Text.ofInt t.level, t.kindName, text] ++ "\n"

def tokenMap (t : Token) : Cbor :=
  .map ([(1, .text t.text), (2, .int t.line), (3, .int t.level), (4, .text t.kindName)] ++
    if t.raw then [(5, .bool true)] else [])

def tokens (s : Setup) (file format : Text) : ExceptT Fault m Unit := do
  let source ← readSource file
  let scanned := scan s.config.indentation source
  (reportLines (s.verbosity.lines (scanned.records file)) : m Unit)
  match scanned.outcome with
  | .error e =>
    (reportLines [(Fault.scan e).render s.color file source] : m Unit)
    throw (.unscannable file (some (.scan e)))
  | .ok r =>
    if format = "text" then (Host.print (r.tokens.flatMap tokenLine) : m Unit)
    else if format = "cbor" then
      (Host.print (Cbor.array (r.tokens.map tokenMap)).encode : m Unit)
    else throw (.plain ("unknown format " ++ format.quoted ++ " (want text or cbor)"))

/-! ## Running -/

def usage : Text :=
  "Translate Delight source files into D\n\n" ++
  "Usage:\n" ++
  "  delight translate <file>... [-o file] [--stdout]\n" ++
  "  delight check <file>...\n" ++
  "  delight watch [path]...\n" ++
  "  delight tokens <file> [--format text|cbor]\n" ++
  "  delight version\n\n" ++
  "Flags for all commands:\n" ++
  "  --config file   the configuration file (default: nearest .delight.yaml)\n" ++
  "  --debug         enable debug output\n" ++
  "  --no-color      disable colored output\n"

def perform (version : Text) (s : Setup) : Action → ExceptT Fault m Unit
  | .translate files output toStdout => translate s files output toStdout
  | .check files => check s files
  | .watch paths => watch s paths
  | .tokens file format => tokens s file format
  | .version => (Host.print ("delight " ++ version ++ "\n") : m Unit)
  | .help => (Host.print usage : m Unit)

def execute (version : Text) (line : CommandLine) : ExceptT Fault m Unit := do
  if line.action = .help then perform version {} .help
  else perform version (← Setup.prepare version line.options) line.action

def run (version : Text) (args : List Text) : m Nat := do
  let job : ExceptT Fault m Unit := match CommandLine.parse args with
    | .error e => throw (.plain e.message)
    | .ok line => execute version line
  match ← job.run with
  | .ok () => return 0
  | .error f =>
    reportFault f
    return f.exitCode

end Command

end Offside
