/-
Edit distance.

`editDistance a b` is the least number of insertions, deletions and replacements of one element that
turn `a` into `b`. It is computed row by row: the row of a list `a` holds the distances from `a` to
every end part of `b`, so that the first entry of the last row is the answer.
-/
import Offside.Text.Utf8

set_option autoImplicit false

namespace Offside

variable {α : Type} [DecidableEq α]

/-- The row of `x :: a` over the end parts of `b`, given the row of `a`. -/
def editRow (x : α) : List α → List Nat → List Nat
  | y :: b, above :: (diagonal :: row) =>
    let rest := editRow x b (diagonal :: row)
    let right := rest.headD 0
    (if x = y then diagonal else 1 + min diagonal (min above right)) :: rest
  | _, above :: _ => [above + 1]
  | _, [] => []

def editDistance (a b : List α) : Nat :=
  let distances := a.foldr (fun x row => editRow x b row) ((List.range (b.length + 1)).reverse)
  distances.headD 0

namespace Text

/-- Edit distance in characters; every stray byte is the replacement character. -/
def distance (a b : Text) : Nat :=
  editDistance (a.symbols.map Symbol.code) (b.symbols.map Symbol.code)

end Text

end Offside
