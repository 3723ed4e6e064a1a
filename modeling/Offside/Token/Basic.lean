/-
Tokens.

A token is a piece of source text with its place: the line it stands on, the indentation level and
the number of open raw blocks once it is read. A raw token is verbatim text, the rest of a comment
or a line of a raw block, and is never read as a keyword whatever it spells.
-/
import Offside.Lexicon.Lexeme
import Offside.Text.Quoted

set_option autoImplicit false

namespace Offside

structure Token where
  text : Text := []
  line : Int := 0
  level : Int := 0
  depth : Int := 0
  raw : Bool := false
  deriving DecidableEq, Repr

namespace Token

def lexeme (t : Token) : Lexeme := if t.raw then .plain else .ofText t.text

def category (t : Token) : Category := t.lexeme.category

def is (t : Token) (text : Text) : Bool := !t.raw && t.text == text

def isMarker (t : Token) : Bool := Marker.all.any fun m => t.is m.text

/-- Is the token a word that can stand in a module path or after a dot, keyword or not? -/
def isWord (t : Token) : Bool := !t.raw && t.text.isWord

def isCommentSign (t : Token) : Bool := t.is "#" || t.is "#."

def kindName (t : Token) : Text := if t.raw then "raw" else t.category.name

/-- The token as diagnostics and traces show it: its line and its quoted text. -/
def describe (t : Token) : Text :=
  Text.ofInt t.line ++ (if t.raw then ":raw " else ":") ++ t.text.quoted

end Token

end Offside
