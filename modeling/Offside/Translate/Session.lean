/-
The state of the translator.

Besides what parsers read and record, the translator keeps the open scopes, the type parameters of
the enclosing classes, whether the statement translated last was a jump, and a trace of the tokens
that started a clause.
-/
import Offside.Parse.Basic
import Offside.Scope

set_option autoImplicit false

namespace Offside

/-- A token that started a clause, with the scopes that were open. -/
structure Dispatch where
  token : Token
  scopes : Text
  deriving DecidableEq, Repr

structure Session where
  reader : Reader
  scopes : Scopes Tag := {}
  /-- The type parameters of the enclosing classes, the innermost first. -/
  generics : List (List Text) := []
  /-- Was the last statement of the current block a jump? -/
  terminated : Bool := false
  /-- The tokens that started a clause, the latest first. -/
  trace : List Dispatch := []
  deriving DecidableEq, Repr

abbrev Translate := EStateM Stop Session

namespace Session

def ofTokens (tokens : List Token) : Session := { reader := { stream := .ofTokens tokens } }

def stream (s : Session) : Stream := s.reader.stream

def remaining (s : Session) : Nat := s.stream.remaining

end Session

namespace Translate

variable {α : Type}

def parse (p : Parse α) : Translate α := fun s =>
  match p s.reader with
  | .ok a reader => .ok a { s with reader := reader }
  | .error e reader => .error e { s with reader := reader }

instance : MonadLift Parse Translate := ⟨parse⟩

def reject (e : ParseError) : Translate α := throw (.rejected e)

def rejectContext (t : Token) (reason : Text) : Translate α := reject (.context reason t)

/-! ## Scopes -/

def inside (tags : List Tag) : Translate Bool := return (← get).scopes.contains tags

def openScope (tag : Tag) : Translate Unit := fun s =>
  match s.scopes.push tag with
  | .ok scopes => .ok () { s with scopes := scopes }
  | .error v => .error (.violated v) s

def closeScope : Translate Tag := fun s =>
  match s.scopes.pop with
  | .ok (tag, scopes) => .ok tag { s with scopes := scopes }
  | .error v => .error (.violated v) s

def forgetPrevious : Translate Unit := modify fun s => { s with scopes := s.scopes.forget }

def setTerminated (b : Bool) : Translate Unit := modify fun s => { s with terminated := b }

/-! ## Type parameters -/

def noClassOpen : Violation := ⟨.invariant, "no class is open"⟩

def openGenerics (names : List Text) : Translate Unit :=
  modify fun s => { s with generics := names :: s.generics }

def closeGenerics : Translate Unit := fun s =>
  match s.generics with
  | [] => .error (.violated noClassOpen) s
  | _ :: generics => .ok () { s with generics := generics }

/-! ## Trace -/

/-- Records the token that starts a clause. The answer says whether it is the very first. -/
def recordDispatch (t : Token) : Translate Bool := do
  let s ← get
  set { s with trace := { token := t, scopes := s.scopes.describe } :: s.trace }
  return s.trace.isEmpty

end Translate

end Offside
