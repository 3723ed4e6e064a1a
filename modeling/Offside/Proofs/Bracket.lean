/-
Nesting of brackets in text.

`nesting` reads a text with a stack of the brackets that are open. Pieces of a well-nested text need
not be well-nested, so what is composed is their effect on the stack.
-/
import Offside.Text.Basic

set_option autoImplicit false

namespace Offside

/-- The kinds of brackets. -/
inductive Bracket
  | round
  | square
  | curly
  deriving DecidableEq, Repr

namespace Bracket

def opening : Bracket → UInt8
  | round => '('.toUInt8
  | square => '['.toUInt8
  | curly => '\x7b'.toUInt8

def closing : Bracket → UInt8
  | round => ')'.toUInt8
  | square => ']'.toUInt8
  | curly => '\x7d'.toUInt8

def all : List Bracket := [round, square, curly]

def opens? (b : UInt8) : Option Bracket := all.find? fun k => k.opening = b

def closes? (b : UInt8) : Option Bracket := all.find? fun k => k.closing = b

@[simp] theorem opens?_opening (k : Bracket) : opens? k.opening = some k := by
  cases k <;> decide

@[simp] theorem opens?_closing (k : Bracket) : opens? k.closing = none := by
  cases k <;> decide

@[simp] theorem closes?_closing (k : Bracket) : closes? k.closing = some k := by
  cases k <;> decide

end Bracket

variable {t : Text}

namespace Text

def isBracket (b : UInt8) : Bool := (Bracket.opens? b).isSome || (Bracket.closes? b).isSome

/-- The brackets that are open after a text, the innermost first, if they are `stack` before it.
There are none if a closing bracket of the text does not match the innermost one that is open. -/
def nesting : List Bracket → Text → Option (List Bracket)
  | stack, [] => some stack
  | stack, b :: rest =>
    match Bracket.opens? b with
    | some k => nesting (k :: stack) rest
    | none =>
      match Bracket.closes? b with
      | none => nesting stack rest
      | some k =>
        match stack with
        | [] => none
        | top :: stack => if top = k then nesting stack rest else none

/-- Every closing bracket matches the innermost one that is open, and none is left open. -/
def WellNested (t : Text) : Prop := nesting [] t = some []

instance (t : Text) : Decidable (WellNested t) := inferInstanceAs (Decidable (_ = _))

def Balanced (t : Text) : Prop := ∀ stack, nesting stack t = some stack

/-- The effect of a text on the stack is that of its parts. -/
theorem nesting_append (stack : List Bracket) (a b : Text) :
    nesting stack (a ++ b) = (nesting stack a).bind fun stack => nesting stack b := by
  induction a generalizing stack with
  | nil => rfl
  | cons x a ih =>
    rw [List.cons_append, nesting, nesting]
    split
    · exact ih _
    · split
      · exact ih _
      · split
        · rfl
        · split
          · exact ih _
          · rfl

@[simp] theorem nesting_opening (stack : List Bracket) (k : Bracket) (rest : Text) :
    nesting stack (k.opening :: rest) = nesting (k :: stack) rest := by
  simp [nesting]

@[simp] theorem nesting_closing (stack : List Bracket) (k : Bracket) (rest : Text) :
    nesting (k :: stack) (k.closing :: rest) = nesting stack rest := by
  simp [nesting]

/-- A text without brackets is balanced. -/
theorem balanced_of_no_bracket (h : ∀ b ∈ t, isBracket b = false) : Balanced t := by
  intro stack
  induction t with
  | nil => rfl
  | cons b t ih =>
    obtain ⟨hb, ht⟩ := List.forall_mem_cons.mp h
    rw [isBracket, Bool.or_eq_false_iff, Option.isSome_eq_false_iff, Option.isSome_eq_false_iff,
      Option.isNone_iff_eq_none, Option.isNone_iff_eq_none] at hb
    rw [nesting, hb.1, hb.2]
    exact ih ht

theorem Balanced.append {a b : Text} (ha : Balanced a) (hb : Balanced b) : Balanced (a ++ b) := by
  intro stack
  rw [nesting_append, ha stack]
  exact hb stack

/-- A balanced text stays balanced in brackets of one kind. -/
theorem Balanced.enclose (k : Bracket) (h : Balanced t) : Balanced (k.opening :: (t ++ [k.closing])) := by
  intro stack
  rw [nesting_opening, nesting_append, h (k :: stack), Option.bind_some, nesting_closing]
  rfl

end Text

end Offside
