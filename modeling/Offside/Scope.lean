/-
Open scopes.

A block that is open leaves a tag on a stack, the innermost block on top. The tag of the block
closed last is remembered, so that a clause that continues it, such as `else`, can be told from a
stray one. Tags are named, and a tag without a name cannot be opened.
-/
import Offside.Contract

set_option autoImplicit false

namespace Offside

/-- Kinds of scopes have names. -/
class Named (τ : Type) where
  name : τ → Text

/-- Names themselves can serve as tags. -/
instance : Named Text := ⟨id⟩

/-- The scopes that are open, the innermost first, and the one closed last. -/
structure Scopes (τ : Type) where
  tags : List τ := []
  previous : Option τ := none
  deriving DecidableEq, Repr

namespace Scopes

variable {τ : Type} [Named τ]

def unnamed : Violation := ⟨.precondition, "scope tag must not be empty"⟩

def noneOpen : Violation := ⟨.precondition, "pop from an empty scope stack"⟩

def push (tag : τ) (s : Scopes τ) : Except Violation (Scopes τ) :=
  if (Named.name tag).isEmpty then .error unnamed else .ok { s with tags := tag :: s.tags }

def pop (s : Scopes τ) : Except Violation (τ × Scopes τ) :=
  match s.tags with
  | [] => .error noneOpen
  | tag :: tags => .ok (tag, { tags := tags, previous := some tag })

def top? (s : Scopes τ) : Option τ := s.tags.head?

def contains [DecidableEq τ] (s : Scopes τ) (tags : List τ) : Bool :=
  s.tags.any fun tag => decide (tag ∈ tags)

def forget (s : Scopes τ) : Scopes τ := { s with previous := none }

def depth (s : Scopes τ) : Nat := s.tags.length

def isEmpty (s : Scopes τ) : Bool := s.tags.isEmpty

def nameOf (tag? : Option τ) : Text := (tag?.map Named.name).getD []

def describe (s : Scopes τ) : Text := "[" ++ Text.join " " (s.tags.reverse.map Named.name) ++ "]"

end Scopes

/-- What a block of Delight can be. -/
inductive Tag
  | function
  | userType
  | template
  | ifBlock
  | elseBlock
  | whileLoop
  | forLoop
  | switchBlock
  | caseBody
  | tryBlock
  | exceptBlock
  | finallyBlock
  | passthrough
  | comment
  | unittest
  | attributes (word : Text)
  deriving DecidableEq, Repr

namespace Tag

/-- The name of the tag. A block of attributes is named after its attribute. -/
def name : Tag → Text
  | function => "function"
  | userType => "class"
  | template => "template"
  | ifBlock => "if"
  | elseBlock => "else"
  | whileLoop => "while"
  | forLoop => "for"
  | switchBlock => "switch"
  | caseBody => "case"
  | tryBlock => "try"
  | exceptBlock => "except"
  | finallyBlock => "finally"
  | passthrough => "passthrough"
  | comment => "comment"
  | unittest => "unittest"
  | attributes word => word

instance : Named Tag := ⟨name⟩

end Tag

end Offside
