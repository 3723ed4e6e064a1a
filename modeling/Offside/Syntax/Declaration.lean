/-
Declarations: parameters, functions, classes.

Parameters come in groups: a type with its storage attributes, and the names that share it. In D
every name carries its own copy of both. A function whose signature uses single-letter types that no
enclosing class binds becomes a template over these letters.
-/
import Offside.Syntax.Expr

set_option autoImplicit false

namespace Offside

/-- A name with an optional value. -/
structure Binding where
  name : Text
  value : Option Expr := none

namespace Binding

def code (b : Binding) : Text :=
  match b.value with
  | none => b.name
  | some value => b.name ++ " = " ++ value.code

end Binding

/-- Parameters that share one type. -/
structure ParameterGroup where
  storage : List Text
  type : TypeExpr
  bindings : List Binding

namespace ParameterGroup

/-- The storage attributes and the type, as they stand in front of each name. -/
def typeCode (g : ParameterGroup) : Text := Text.join " " (g.storage ++ [g.type.code])

def codes (g : ParameterGroup) : List Text := g.bindings.map fun b => g.typeCode ++ " " ++ b.code

def listCode (groups : List ParameterGroup) : Text := commaSeparated (groups.flatMap codes)

end ParameterGroup

def parameterList : List Text → Text
  | [] => []
  | names => "(" ++ commaSeparated names ++ ")"

def firsts {α : Type} [DecidableEq α] : List α → List α
  | [] => []
  | a :: as => a :: (firsts as).filter (· ≠ a)

/-- The header of a function, method or procedure. -/
structure FunctionHeader where
  word : FunctionWord
  /-- Is it declared inside of a class? -/
  inClass : Bool
  name : Text
  parameters : List ParameterGroup := []
  result : Option TypeExpr := none
  /-- The type parameters of the enclosing classes. -/
  bound : List Text := []

namespace FunctionHeader

/-- The single-letter types of the signature that no enclosing class binds, in order of first
appearance. -/
def typeParameters (f : FunctionHeader) : List Text :=
  let letters := f.parameters.flatMap (·.type.letters) ++ (f.result.map TypeExpr.letters).getD []
  firsts (letters.filter fun l => decide (l ∉ f.bound))

def qualifiers (f : FunctionHeader) : Text :=
  match f.word, f.inClass with
  | .function, true => "static pure "
  | .function, false => "pure "
  | _, _ => ""

/-- The result type. A procedure has none; any other result is inferred if it is not given. -/
def resultCode (f : FunctionHeader) : Text :=
  match f.result, f.word with
  | some type, _ => type.code
  | none, .procedure => "void"
  | none, _ => "auto"

def code (f : FunctionHeader) : Text :=
  f.qualifiers ++ f.resultCode ++ " " ++ f.name ++ parameterList f.typeParameters ++
    "(" ++ ParameterGroup.listCode f.parameters ++ ")"

end FunctionHeader

/-- The header of a class, struct or interface. -/
structure UserTypeHeader where
  word : UserType
  name : Text
  parameters : List Text := []
  parents : List TypeExpr := []

namespace UserType

def text : UserType → Text
  | classType => "class"
  | structType => "struct"
  | interfaceType => "interface"

end UserType

namespace UserTypeHeader

def parentsCode (u : UserTypeHeader) : Text :=
  match u.parents with
  | [] => []
  | parents => " : " ++ commaSeparated (parents.map TypeExpr.code)

def code (u : UserTypeHeader) : Text :=
  u.word.text ++ " " ++ u.name ++ parameterList u.parameters ++ u.parentsCode

end UserTypeHeader

end Offside
