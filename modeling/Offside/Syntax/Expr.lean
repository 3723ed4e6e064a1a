/-
Expressions and types.

An expression is an operand, or an operand, an operator and another expression: operators group to
the right and none binds tighter than another. Types and expressions contain each other, through
array dimensions on one side and `new` and template arguments on the other.

`Expr.code` and its companions give the D text. They look at the tree alone.
-/
import Offside.Lexicon.Lexeme
import Offside.Prelude

set_option autoImplicit false

namespace Offside

/-- What can join two operands. -/
inductive BinaryOp
  | arithmetic (symbol : Text)
  | and
  | or
  | compare (negated : Bool) (c : Comparator)
  | range
  deriving DecidableEq, Repr

mutual

inductive Expr
  | single (operand : Operand)
  | binary (left : Operand) (op : BinaryOp) (right : Expr)

/-- What an operator applies to. Accessors follow atoms, groups and array literals only. -/
inductive Operand
  | minus (inner : Operand)
  | negation (inner : Operand)
  | new (type : TypeExpr)
  | newCall (type : TypeExpr) (arguments : List Expr)
  | atom (text : Text) (accessors : List Accessor)
  | group (inner : Expr) (accessors : List Accessor)
  | array (elements : List Element) (accessors : List Accessor)

/-- An element of an array literal; one with a key belongs to an associative array. -/
inductive Element
  | item (value : Expr)
  | entry (key value : Expr)

/-- What may follow a value. -/
inductive Accessor
  | member (name : Text)
  | whole
  | index (position : Expr)
  | slice (low high : Option Expr)
  | call (arguments : List Expr)
  | instantiate (argument : TemplateArgument)
  | instantiateAll (arguments : List TemplateArgument)

inductive TemplateArgument
  | type (type : TypeExpr)
  | word (text : Text)

/-- A type name, with an optional template instantiation, and groups of array dimensions. A
dimension may be left open. -/
inductive TypeExpr
  | plain (name : Text) (dimensions : List (List (Option Expr)))
  | applied (name : Text) (argument : TemplateArgument) (dimensions : List (List (Option Expr)))
  | appliedAll (name : Text) (arguments : List TemplateArgument)
      (dimensions : List (List (Option Expr)))

end

/-! ## Operators in D -/

namespace Comparator

def symbol : Comparator → Text
  | lessThan | lt => "<"
  | moreThan | gt => ">"
  | equalTo | eq => "=="
  | same => "is"
  | member => "in"
  | le => "<="
  | ge => ">="
  | ne => "!="

def opposite : Comparator → Text
  | lessThan | lt => ">="
  | moreThan | gt => "<="
  | equalTo | eq => "!="
  | same => "!is"
  | member => "!in"
  | le => ">"
  | ge => "<"
  | ne => "=="

end Comparator

namespace BinaryOp

/-- The operator between the D texts of its operands. A membership test becomes a call with the
container first, and a range a call that builds it. -/
def code (op : BinaryOp) (left right : Text) : Text :=
  let between (symbol : Text) : Text := left ++ " " ++ symbol ++ " " ++ right
  match op with
  | arithmetic symbol => between symbol
  | and => between "&&"
  | or => between "||"
  | compare false .member => "contains(" ++ right ++ ", " ++ left ++ ")"
  | compare true .member => "!contains(" ++ right ++ ", " ++ left ++ ")"
  | compare false c => between c.symbol
  | compare true c => between c.opposite
  | range => "range(" ++ left ++ ", " ++ right ++ ")"

def helper? : BinaryOp → Option Helper
  | compare _ .member => some .contains
  | range => some .range
  | _ => none

end BinaryOp

/-! ## Expressions in D -/

def commaSeparated (ts : List Text) : Text := Text.join ", " ts

mutual

def Expr.code : Expr → Text
  | .single operand => operand.code
  | .binary left op right => op.code left.code right.code

def Operand.code : Operand → Text
  | .minus inner => "-" ++ inner.code
  | .negation inner => "!" ++ inner.code
  | .new type => "new " ++ type.code
  | .newCall type arguments =>
    "new " ++ type.code ++ "(" ++ commaSeparated (Expr.codes arguments) ++ ")"
  | .atom text accessors => text ++ Accessor.codes accessors
  | .group inner accessors => "(" ++ inner.code ++ ")" ++ Accessor.codes accessors
  | .array elements accessors =>
    "[" ++ commaSeparated (Element.codes elements) ++ "]" ++ Accessor.codes accessors

def Element.code : Element → Text
  | .item value => value.code
  | .entry key value => key.code ++ ": " ++ value.code

/-- A slice without a lower bound starts at zero, one without an upper bound ends at the length. -/
def Accessor.code : Accessor → Text
  | .member name => "." ++ name
  | .whole => "[]"
  | .index position => "[" ++ position.code ++ "]"
  | .slice low high =>
    "[" ++ Expr.optionalCode "0" low ++ " .. " ++ Expr.optionalCode "$" high ++ "]"
  | .call arguments => "(" ++ commaSeparated (Expr.codes arguments) ++ ")"
  | .instantiate argument => "!" ++ argument.code
  | .instantiateAll arguments => "!(" ++ commaSeparated (TemplateArgument.codes arguments) ++ ")"

def TemplateArgument.code : TemplateArgument → Text
  | .type type => type.code
  | .word text => text

/-- Every dimension gets a bracket pair of its own, whichever group it is in. -/
def TypeExpr.code : TypeExpr → Text
  | .plain name dimensions => name ++ Expr.groupsCode dimensions
  | .applied name argument dimensions =>
    name ++ "!" ++ argument.code ++ Expr.groupsCode dimensions
  | .appliedAll name arguments dimensions =>
    name ++ "!(" ++ commaSeparated (TemplateArgument.codes arguments) ++ ")" ++
      Expr.groupsCode dimensions

def Expr.codes : List Expr → List Text
  | [] => []
  | e :: es => e.code :: Expr.codes es

def Expr.optionalCode (absent : Text) : Option Expr → Text
  | none => absent
  | some e => e.code

def Expr.groupsCode : List (List (Option Expr)) → Text
  | [] => []
  | group :: groups => Expr.groupCode group ++ Expr.groupsCode groups

def Expr.groupCode : List (Option Expr) → Text
  | [] => []
  | size :: sizes => "[" ++ Expr.optionalCode "" size ++ "]" ++ Expr.groupCode sizes

def Element.codes : List Element → List Text
  | [] => []
  | e :: es => e.code :: Element.codes es

def Accessor.codes : List Accessor → Text
  | [] => []
  | a :: as => a.code ++ Accessor.codes as

def TemplateArgument.codes : List TemplateArgument → List Text
  | [] => []
  | a :: as => a.code :: TemplateArgument.codes as

end

/-! ## Type parameters -/

mutual

/-- The single-letter type names in a type, in order, array dimensions left out. -/
def TypeExpr.letters : TypeExpr → List Text
  | .plain name _ => if Category.ofText name = .templateType then [name] else []
  | .applied name argument _ =>
    (if Category.ofText name = .templateType then [name] else []) ++ argument.letters
  | .appliedAll name arguments _ =>
    (if Category.ofText name = .templateType then [name] else []) ++
      TemplateArgument.lettersOf arguments

def TemplateArgument.letters : TemplateArgument → List Text
  | .type type => type.letters
  | .word _ => []

def TemplateArgument.lettersOf : List TemplateArgument → List Text
  | [] => []
  | a :: as => a.letters ++ TemplateArgument.lettersOf as

end

def Accessor.endsInCall (accessors : List Accessor) : Bool :=
  match accessors.getLast? with
  | some (.call _) => true
  | _ => false

end Offside
