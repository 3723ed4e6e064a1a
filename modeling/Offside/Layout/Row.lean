/-
Rows: the lines of a source that carry tokens, and the markers between them.

A row is a line of words at its indentation level, or a verbatim line of a raw block. Tokens follow
from rows alone: the indentation levels of neighbouring rows decide which markers stand between
them. A step one level deeper is one indent marker; otherwise each level that ends has a dedent
marker, and a newline marker ends the line. A marker carries the number of the line it ends.
-/
import Offside.Layout.Word

set_option autoImplicit false

namespace Offside

/-- A line that carries tokens. -/
inductive Row
  | words (line level : Nat) (words : List Word)
  | verbatim (line level : Nat) (text : Text)
  deriving DecidableEq, Repr

namespace Row

def line : Row → Nat
  | words line _ _ => line
  | verbatim line _ _ => line

def level : Row → Nat
  | words _ level _ => level
  | verbatim _ level _ => level

def isVerbatim : Row → Bool
  | words .. => false
  | verbatim .. => true

def tokens : Row → List Token
  | words line level ws => ws.flatMap (Word.tokens line level)
  | verbatim line level text =>
    [{ text := text, line := line, level := level, depth := 1, raw := true }]

def marker (row : Row) (m : Marker) (level : Nat) (depth : Int) : Token :=
  { text := m.text, line := row.line, level := level, depth := depth }

/-- The markers after a row when the next one is at `level` or there is none and `level` is zero:
one dedent for each level that ends, and the newline. -/
def closing (row : Row) (level : Nat) : List Token :=
  (List.range (row.level - level)).map (fun i => row.marker .dedent (row.level - 1 - i) 0) ++
    [row.marker .newline level 0]

def between (a b : Row) : List Token :=
  if b.isVerbatim then [a.marker (if a.isVerbatim then .newline else .indent) b.level 1]
  else if b.level = a.level + 1 then [a.marker .indent b.level 0]
  else a.closing b.level

def tokensAfter (a : Row) : List Row → List Token
  | [] => a.closing 0
  | b :: rows => a.between b ++ b.tokens ++ tokensAfter b rows

def start : Token := { text := Marker.begin.text, line := 1 }

def allTokens : List Row → List Token
  | [] => [start]
  | row :: rows => start :: row.tokens ++ tokensAfter row rows

end Row

end Offside
