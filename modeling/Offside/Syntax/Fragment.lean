/-
Fragments of output.

A fragment is a list of pieces. Generated code is kept apart from text that was copied, comments
from verbatim lines, and a line break knows its indentation level but not the unit. So the unit
enters only when a fragment is written out, and a comment can be told from the code around it.
-/
import Offside.Text.Basic

set_option autoImplicit false

namespace Offside

inductive Piece
  | code (text : Text)
  | comment (text : Text)
  | verbatim (text : Text)
  | lineBreak (level : Int)
  deriving DecidableEq, Repr

abbrev Fragment := List Piece

namespace Piece

/-- The piece with the given indentation unit. A level below zero counts as zero. -/
def render (unit : Text) : Piece → Text
  | code text => text
  | comment text => text
  | verbatim text => text
  | lineBreak level => "\n" ++ Text.repeated level.toNat unit

end Piece

namespace Fragment

def render (unit : Text) (f : Fragment) : Text := f.flatMap (Piece.render unit)

end Fragment

end Offside
