/-
Tokens that cannot be translated.

A token is rejected because no construct allows it, because another one had to stand in its place,
or because the blocks around it do not admit it. All three stop the translator; they differ in what
the message says.
-/
import Offside.Token.Basic

set_option autoImplicit false

namespace Offside

/-- The ways in which a token is rejected. An error from elsewhere may have none of them. -/
inductive Rejection
  | unexpected
  | missing
  | context
  | unspecified
  deriving DecidableEq, Repr

/-- A rejected token. -/
structure ParseError where
  kind : Rejection
  line : Int
  category : CategoryCode
  /-- The offending text, or a phrase when the input ended. -/
  text : Text
  /-- What had to stand there, if something had to. -/
  expected : Text := []
  /-- Why the token is not admitted here. -/
  reason : Text := []
  /-- Keywords that may have been meant. -/
  suggestions : List Text := []
  deriving DecidableEq, Repr

namespace Rejection

def name : Rejection → Text
  | unexpected => "unexpected token"
  | missing => "missing token"
  | context => "context violation"
  | unspecified => "error"

def ofInt : Int → Rejection
  | 0 => unexpected
  | 1 => missing
  | 2 => context
  | _ => unspecified

end Rejection

namespace ParseError

def unexpected (t : Token) : ParseError :=
  { kind := .unexpected, line := t.line, category := t.category, text := t.text }

def missing (wanted : Text) (t : Token) : ParseError :=
  { kind := .missing, line := t.line, category := t.category, text := t.text, expected := wanted }

def context (reason : Text) (t : Token) : ParseError :=
  { kind := .context, line := t.line, category := t.category, text := t.text, reason := reason }

def endOfInput (wanted : Text) (line : Int) : ParseError :=
  { kind := .missing, line := line, category := Category.identifier, text := "end of input",
    expected := wanted }

def message (e : ParseError) : Text :=
  let place := "On line " ++ Text.ofInt e.line
  match e.kind with
  | .missing => place ++ ": expected '" ++ e.expected ++ "' but got '" ++ e.text ++ "'"
  | _ => place ++ ": unexpected " ++ e.category.name ++ " '" ++ e.text ++ "'"

def detail (e : ParseError) : Text :=
  let reason := if e.reason.isEmpty then [] else [e.reason]
  let quoted : List Text := e.suggestions.map fun s => "'" ++ s ++ "'"
  let guess := if e.suggestions.isEmpty then [] else ["did you mean " ++ Text.join " or " quoted ++ "?"]
  Text.join "; " (reason ++ guess)

end ParseError

end Offside
