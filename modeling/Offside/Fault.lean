/-
Faults: what the command reports when it fails.

A fault is a chain. At its end stands a plain message, a rejected source, or a report; reports and
plain messages may also wrap another fault. The first report in a chain decides how the whole chain
is described and with which code the command exits.
-/
import Offside.Translate.History

set_option autoImplicit false

namespace Offside

/-- The types of reports. -/
inductive FaultType
  | inputRead
  | outputWrite
  | scan
  | translate
  | stale
  | configRead
  | configValidation
  | versionMismatch
  | watch
  | other (name : Text)
  deriving DecidableEq, Repr

namespace FaultType

def known : List FaultType :=
  [inputRead, outputWrite, scan, translate, stale, configRead, configValidation, versionMismatch,
   watch]

def name : FaultType → Text
  | inputRead => "INPUT_READ_ERROR"
  | outputWrite => "OUTPUT_WRITE_ERROR"
  | scan => "SCAN_ERROR"
  | translate => "TRANSLATE_ERROR"
  | stale => "STALE_OUTPUT"
  | configRead => "CONFIG_READ_ERROR"
  | configValidation => "CONFIG_VALIDATION_ERROR"
  | versionMismatch => "VERSION_MISMATCH"
  | watch => "WATCH_ERROR"
  | other name => name

def ofName (t : Text) : FaultType := (known.find? (·.name = t)).getD (other t)

def exitCode : FaultType → Nat
  | scan | translate => 3
  | configValidation | versionMismatch => 2
  | _ => 1

end FaultType

/-- A typed message with named values that give its context. -/
structure Report where
  type : FaultType
  message : Text
  context : List (Text × Text) := []
  deriving DecidableEq, Repr

namespace Report

def note (r : Report) (key value : Text) : Report :=
  { r with context := r.context.filter (fun kv => kv.1 ≠ key) ++ [(key, value)] }

def contextText (r : Report) : Text :=
  let sorted := r.context.mergeSort fun a b => Text.le a.1 b.1
  Text.join " " (sorted.map fun kv => kv.1 ++ "=" ++ kv.2)

end Report

inductive Fault
  | plain (text : Text)
  | wrapped (text : Text) (cause : Fault)
  | scan (e : ScanError)
  | parse (e : ParseError)
  | report (r : Report)
  | reportOf (r : Report) (cause : Fault)
  deriving DecidableEq, Repr

namespace Fault

def message : Fault → Text
  | plain text => text
  | wrapped text cause => text ++ ": " ++ cause.message
  | scan e => e.message
  | parse e => e.message
  | report r => r.type.name ++ ": " ++ r.message
  | reportOf r cause =>
    r.type.name ++ ": " ++ r.message ++ " (caused by: " ++ cause.message ++ ")"

def cause? : Fault → Option Fault
  | wrapped _ cause => some cause
  | reportOf _ cause => some cause
  | _ => none

def report? : Fault → Option Report
  | report r => some r
  | reportOf r _ => some r
  | wrapped _ cause => cause.report?
  | _ => none

def parseError? : Fault → Option ParseError
  | parse e => some e
  | wrapped _ cause => cause.parseError?
  | reportOf _ cause => cause.parseError?
  | _ => none

def scanError? : Fault → Option ScanError
  | scan e => some e
  | wrapped _ cause => cause.scanError?
  | reportOf _ cause => cause.scanError?
  | _ => none

def isType (f : Fault) (type : FaultType) : Bool :=
  match f.report? with
  | some r => decide (r.type = type)
  | none => false

def exitCode (f : Fault) : Nat := (f.report?.map fun r => r.type.exitCode).getD 1

/-- The message, followed by the context of the first report in brackets. -/
def describe (f : Fault) : Text :=
  let context := (f.report?.map Report.contextText).getD []
  if context.isEmpty then f.message else f.message ++ " [" ++ context ++ "]"

/-! ## Reports of the command -/

def ofSource : SourceError → Fault
  | .scan e => scan e
  | .parse e => parse e

def about (r : Report) : Option Fault → Fault
  | none => report r
  | some cause => reportOf r cause

def ofFile (type : FaultType) (action path : Text) (cause : Option Fault) : Fault :=
  about { type := type, message := action ++ " '" ++ path ++ "'", context := [("file", path)] } cause

def unreadable (path : Text) (cause : Option Fault) : Fault :=
  ofFile .inputRead "cannot read" path cause

def unwritable (path : Text) (cause : Option Fault) : Fault :=
  ofFile .outputWrite "cannot write" path cause

def untranslatable (path : Text) (cause : Option Fault) : Fault :=
  ofFile .translate "cannot translate" path cause

def unscannable (path : Text) (cause : Option Fault) : Fault :=
  ofFile .scan "cannot scan" path cause

def badConfig (type : FaultType) (path : Text) (cause : Option Fault) : Fault :=
  ofFile type "invalid configuration" path cause

def outOfDate (source output reason : Text) : Fault :=
  report { type := .stale, message := "'" ++ output ++ "' is out of date: " ++ reason,
           context := [("source", source), ("output", output)] }

end Fault

end Offside
