/-
Token streams.

A stream is a list of tokens with a reading position, kept as what was read and what is still to
come. Line, level and depth are those of the token read last. A fresh stream stands on line 1.
-/
import Offside.Contract
import Offside.Token.Basic

set_option autoImplicit false

namespace Offside

structure Stream where
  /-- The tokens already read, the latest first. -/
  seen : List Token := []
  /-- The tokens still to be read. -/
  rest : List Token
  deriving DecidableEq, Repr

namespace Stream

def defaultUnit : Text := "    "

def unitOr (unit : Text) : Text := if unit.isEmpty then defaultUnit else unit

def ofTokens (tokens : List Token) : Stream := { rest := tokens }

def current (s : Stream) : Token := s.seen.headD { line := 1 }

def line (s : Stream) : Int := s.current.line

def level (s : Stream) : Int := s.current.level

def depth (s : Stream) : Int := s.current.depth

def isEmpty (s : Stream) : Bool := s.rest.isEmpty

def remaining (s : Stream) : Nat := s.rest.length

def count (s : Stream) : Nat := s.seen.length + s.rest.length

def peek? (s : Stream) : Option Token := s.rest.head?

def peek (s : Stream) : Token := s.rest.headD {}

def exhausted : Violation := ⟨.precondition, "pop from an exhausted token stream"⟩

def pop (s : Stream) : Except Violation (Token × Stream) :=
  match s.rest with
  | [] => .error exhausted
  | t :: rest => .ok (t, { seen := t :: s.seen, rest := rest })

/-! ## Streams of bare words -/

/-- Tokens for words, starting at a line and a level. Levels follow the indent and dedent markers, a
level is never negative, and a line ends after an indent or a newline. -/
def tokensOfWords (line level : Nat) : List Text → List Token
  | [] => []
  | w :: words =>
    let level :=
      if w = Marker.indent.text then level + 1
      else if w = Marker.dedent.text then level - 1
      else level
    let next := if w = Marker.indent.text ∨ w = Marker.newline.text then line + 1 else line
    { text := w, line := line, level := level } :: tokensOfWords next level words

def ofWords (words : List Text) : Stream := ofTokens (tokensOfWords 1 0 words)

end Stream

end Offside
