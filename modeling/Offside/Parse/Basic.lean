/-
Reading tokens.

A parser reads from a stream and records which helpers the program needs. It may stop, and what
was read and recorded until then stays visible. Stopping at a token of the program (`rejected`) is
kept apart from breaking a rule of the library (`violated`).

Repetition and nesting are bounded by a budget that is computed from the number of tokens left.
-/
import Offside.ParseError
import Offside.Prelude
import Offside.Token.Stream

set_option autoImplicit false

namespace Offside

/-- Why parsing stops. -/
inductive Stop
  | rejected (e : ParseError)
  | violated (v : Violation)
  deriving DecidableEq, Repr

/-- What a parser reads from, and what it records. -/
structure Reader where
  stream : Stream
  helpers : Prelude := {}
  deriving DecidableEq, Repr

abbrev Parse := EStateM Stop Reader

namespace Parse

variable {α : Type}

/-! ## Single tokens -/

def reject (e : ParseError) : Parse α := throw (.rejected e)

def pop : Parse Token := fun r =>
  match r.stream.pop with
  | .ok (t, stream) => .ok t { r with stream := stream }
  | .error v => .error (.violated v) r

def peek? : Parse (Option Token) := return (← get).stream.peek?

def rejectEnd (wanted : Text) : Parse α := do reject (.endOfInput wanted (← get).stream.line)

/-- The error that `wanted` had to stand where the next token is, or the end of the input. -/
def missingNext (wanted : Text) : Parse ParseError := do
  match ← peek? with
  | some t => return .missing wanted t
  | none => return .endOfInput wanted (← get).stream.line

/-- Rejects the next token without reading it, or the end of the input, where `wanted` had to
stand. -/
def rejectNext (wanted : Text) : Parse α := do reject (← missingNext wanted)

def next (wanted : Text) : Parse Token := do
  if (← get).stream.isEmpty then rejectEnd wanted else pop

def expect (text : Text) : Parse Unit := do
  let t ← next text
  if !t.is text then reject (.missing text t)

def atText (text : Text) : Parse Bool := return ((← peek?).map (·.is text)).getD false

def accept (text : Text) : Parse Bool := do
  if ← atText text then
    discard pop
    return true
  else return false

def atCategory (c : Category) : Parse Bool := return ((← peek?).map fun t => decide (t.category = c)).getD false

def nextOf (c : Category) (wanted : Text) : Parse Token := do
  let t ← next wanted
  if t.category ≠ c then reject (.missing wanted t)
  return t

/-- Is there nothing left of the current line but its marker and a comment? -/
def atLineEnd : Parse Bool := do
  match ← peek? with
  | none => return true
  | some t => return !t.raw && (t.category.isLineMarker || t.isCommentSign)

def require (h : Helper) : Parse Unit := modify fun r => { r with helpers := r.helpers.require h }

/-! ## Repetition -/

def overBudget : Violation := ⟨.invariant, "nesting exceeds the input"⟩

def stopOverBudget : Parse α := throw (.violated overBudget)

def bounded (p : Nat → Parse α) : Parse α := do p (8 * ((← get).stream.remaining + 1))

def commaList (item : Parse α) : Nat → Parse (List α)
  | 0 => stopOverBudget
  | budget + 1 => do
    let a ← item
    if ← accept "," then return a :: (← commaList item budget) else return [a]

/-- One item or more, with commas between them and `close` after the last. -/
def listTo (close : Text) (item : Parse α) : Nat → Parse (List α)
  | 0 => stopOverBudget
  | budget + 1 => do
    let a ← item
    let separator ← next close
    if separator.is close then return [a]
    else if separator.is "," then return a :: (← listTo close item budget)
    else reject (.missing close separator)

def many (item? : Parse (Option α)) : Nat → Parse (List α)
  | 0 => stopOverBudget
  | budget + 1 => do
    match ← item? with
    | none => return []
    | some a => return a :: (← many item? budget)

end Parse

end Offside
