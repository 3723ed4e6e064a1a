/-
What a token text is.

A text is the keyword it spells; failing that it has the first shape that fits; failing that it is a
plain name. This is total, and each text is exactly one lexeme.
-/
import Offside.Lexicon.Keyword
import Offside.Lexicon.Shape

set_option autoImplicit false

namespace Offside

/-- The classification of a text. -/
inductive Lexeme
  | keyword (k : Keyword)
  | shape (s : Shape)
  | plain
  deriving DecidableEq, Repr

namespace Lexeme

def ofText (t : Text) : Lexeme :=
  match Keyword.ofText? t with
  | some k => keyword k
  | none =>
    match Shape.all.find? (·.fits t) with
    | some s => shape s
    | none => plain

def category : Lexeme → Category
  | keyword k => k.category
  | shape s => s.category
  | plain => .identifier

end Lexeme

namespace Category

def ofText (t : Text) : Category := (Lexeme.ofText t).category

end Category

end Offside
