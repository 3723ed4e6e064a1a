/-
Translating a whole token list.

A history is a list of steps: a token is read, the clause that it starts is translated, and so
on until the input ends or a step stops. What is written follows from the history. After a stop it
holds all that was translated before.
-/
import Offside.Layout.Scan
import Offside.Translate.Clause

set_option autoImplicit false

namespace Offside

/-- One step: the token that was read, what became of it, and the state after it. -/
structure Step where
  token : Token
  outcome : Except Stop Clause
  after : Session

/-- How the token that starts a step is read; there is none at the end of the input. -/
abbrev Feed := Stream → Option (Token × Stream)

namespace Feed

def forward : Feed := fun s =>
  match s.rest with
  | [] => none
  | t :: rest => some (t, { seen := t :: s.seen, rest := rest })

def stalled : Feed := fun s => s.peek?.map fun t => (t, s)

end Feed

namespace Step

def noProgress (line : Int) : Violation :=
  ⟨.invariant, "start state at line " ++ Text.ofInt line ++ " consumed no input"⟩

def next? (feed : Feed) (s : Session) : Option Step :=
  (feed s.stream).map fun (t, stream) =>
    match Translate.clause t { s with reader := { s.reader with stream := stream } } with
    | .ok clause after =>
      if after.remaining < s.remaining then ⟨t, .ok clause, after⟩
      else ⟨t, .error (.violated (noProgress t.line)), after⟩
    | .error stop after => ⟨t, .error stop, after⟩

/-- At most `count` steps from a session on. A step that stops is the last. -/
def sequence (feed : Feed) : Nat → Session → List Step
  | 0, _ => []
  | count + 1, s =>
    match next? feed s with
    | none => []
    | some step =>
      match step.outcome with
      | .ok _ => step :: sequence feed count step.after
      | .error _ => [step]

end Step

/-- The history of translating a token list: where it started, its steps, and the unit of
indentation to write with. -/
structure History where
  unit : Text
  start : Session
  steps : List Step

namespace History

def runWith (feed : Feed) (unit : Text) (tokens : List Token) : History :=
  let start := Session.ofTokens tokens
  { unit := unit, start := start, steps := Step.sequence feed (tokens.length + 1) start }

def run (unit : Text) (tokens : List Token) : History := runWith .forward unit tokens

def final (t : History) : Session := (t.steps.getLast?.map Step.after).getD t.start

def stop? (t : History) : Option Stop :=
  match t.steps.getLast? with
  | some { outcome := .error stop, .. } => some stop
  | _ => none

def clauses (t : History) : List Clause :=
  t.steps.filterMap fun step => step.outcome.toOption

def texts (t : History) : List Text := t.clauses.map (Clause.render t.unit)

def body (t : History) : Text := t.texts.flatten

def helpers (t : History) : List Helper := t.final.reader.helpers.used

def preludeText (t : History) : Text := t.final.reader.helpers.text t.unit

def output (t : History) : Text := t.preludeText ++ t.body

def depth (t : History) : Nat := t.final.scopes.depth

def tokenCount (t : History) : Nat := t.start.remaining - t.final.remaining

def fragmentCount (t : History) : Nat := (t.texts.filter fun text => !text.isEmpty).length

/-! ## Log -/

def dispatchRecord (d : Dispatch) : Log.Record :=
  { level := .debug, message := "dispatch",
    values := [("line", Text.ofInt d.token.line), ("category", d.token.category.name),
      ("text", d.token.text), ("scopes", d.scopes)] }

def failureRecord (file : Text) (e : ParseError) : Log.Record :=
  let cause : List (Text × Text) :=
    [("file", file), ("error", e.message), ("line", Text.ofInt e.line), ("kind", e.kind.name)]
  let detail : List (Text × Text) := if e.detail.isEmpty then [] else [("detail", e.detail)]
  { level := .error, message := "translation failed", values := cause ++ detail }

def successRecords (file : Text) (t : History) : List Log.Record :=
  (if 0 < t.depth then
    [{ level := .warning, message := "input ended with open scopes",
       values := [("file", file), ("scopes", t.final.scopes.describe)] }]
   else []) ++
  [{ level := .debug, message := "translated",
     values := [("file", file), ("helpers", Log.list (t.helpers.map Helper.name))] }]

def records (file : Text) (t : History) : List Log.Record :=
  t.final.trace.reverse.map dispatchRecord ++
  match t.stop? with
  | some (.rejected e) => [failureRecord file e]
  | some (.violated _) => []
  | none => t.successRecords file

end History

/-! ## Source text -/

/-- Source text may fail to scan or to translate. -/
inductive SourceError
  | scan (e : ScanError)
  | parse (e : ParseError)
  deriving DecidableEq, Repr

namespace SourceError

def message : SourceError → Text
  | scan e => e.message
  | parse e => e.message

end SourceError

/-- The outcome of translating source text: what scanning gave and, unless it failed, the
history of its tokens. -/
structure SourceHistory where
  scanned : Scan
  history : Except ScanError History

namespace SourceHistory

/-- Translates source text. The indentation unit is found in the source when `unit` is empty. -/
def run (unit source : Text) : SourceHistory :=
  let s := scan unit source
  { scanned := s, history := s.outcome.map fun r => History.run r.unit r.tokens }

def records (file : Text) (t : SourceHistory) : List Log.Record :=
  t.scanned.records file ++
  match t.history with
  | .ok history => history.records file
  | .error e =>
    [{ level := .error, message := "scan failed",
       values := [("file", file), ("error", e.message)] }]

def error? (t : SourceHistory) : Option SourceError :=
  match t.history with
  | .error e => some (.scan e)
  | .ok history =>
    match history.stop? with
    | some (.rejected e) => some (.parse e)
    | _ => none

end SourceHistory

end Offside
