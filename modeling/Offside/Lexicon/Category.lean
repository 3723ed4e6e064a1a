/-
Categories of token texts.

Every text belongs to exactly one category. The first four after the fallback are the line markers,
the next ones are keyword sets, and the last ones are recognised by their shape.
-/
import Offside.Text.Basic

set_option autoImplicit false

namespace Offside

/-- The semantic class of a token text. -/
inductive Category
  | identifier
  | newline
  | indent
  | dedent
  | begin
  | assignment
  | attributeWord
  | comparator
  | conditional
  | constructorWord
  | exceptionWord
  | functionWord
  | libraryWord
  | logical
  | operator
  | statement
  | typeWord
  | userType
  | stringLiteral
  | characterLiteral
  | numberLiteral
  | templateType
  | constant
  | classIdentifier
  | punctuation
  deriving DecidableEq, Repr

namespace Category

def all : List Category :=
  [identifier, newline, indent, dedent, begin, assignment, attributeWord, comparator, conditional,
   constructorWord, exceptionWord, functionWord, libraryWord, logical, operator, statement, typeWord,
   userType, stringLiteral, characterLiteral, numberLiteral, templateType, constant, classIdentifier,
   punctuation]

def name : Category → Text
  | identifier => "identifier"
  | newline => "newline"
  | indent => "indent"
  | dedent => "dedent"
  | begin => "begin"
  | assignment => "assignment-operator"
  | attributeWord => "attribute"
  | comparator => "comparator"
  | conditional => "conditional"
  | constructorWord => "constructor"
  | exceptionWord => "exception-keyword"
  | functionWord => "function-type"
  | libraryWord => "library-keyword"
  | logical => "logical"
  | operator => "operator"
  | statement => "statement"
  | typeWord => "type"
  | userType => "user-type"
  | stringLiteral => "string-literal"
  | characterLiteral => "character-literal"
  | numberLiteral => "number-literal"
  | templateType => "template-type"
  | constant => "constant"
  | classIdentifier => "class-identifier"
  | punctuation => "punctuation"

def isLineMarker : Category → Bool
  | newline | indent | dedent | begin => true
  | _ => false

def isLiteral : Category → Bool
  | stringLiteral | characterLiteral | numberLiteral => true
  | _ => false

def isTypeName : Category → Bool
  | typeWord | classIdentifier | templateType => true
  | _ => false

def isBinary : Category → Bool
  | operator | comparator | logical => true
  | _ => false

end Category

/-- A category as a number refers to it. Numbers outside of `Category.all` refer to none. -/
inductive CategoryCode
  | known (c : Category)
  | unknown (n : Int)
  deriving DecidableEq, Repr

namespace CategoryCode

instance : Coe Category CategoryCode := ⟨known⟩

def ofInt : Int → CategoryCode
  | .ofNat n =>
    match Category.all[n]? with
    | some c => known c
    | none => unknown n
  | .negSucc n => unknown (.negSucc n)

def category? : CategoryCode → Option Category
  | known c => some c
  | unknown _ => none

def name : CategoryCode → Text
  | known c => c.name
  | unknown n => "Category(" ++ Text.ofInt n ++ ")"

end CategoryCode

end Offside
