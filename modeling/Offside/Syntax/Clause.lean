/-
Clauses: what is translated in one go.

A clause is a simple statement with the end of its line, a header that opens a block, a chain of
case labels, a comment, a raw block, or a single line marker. Attributes may stand before a clause.
The fragment of a clause looks at the clause alone: whether a case body needs its `break`, for
example, is part of the clause that closes it.
-/
import Offside.Scope
import Offside.Syntax.Declaration
import Offside.Syntax.Fragment

set_option autoImplicit false

namespace Offside

/-! ## Simple statements -/

/-- A name or `this` or `super`, with accessors. -/
structure Target where
  head : Text
  accessors : List Accessor

namespace Target

def code (t : Target) : Text := t.head ++ Accessor.codes t.accessors

end Target

/-- A dotted module name. -/
abbrev ModulePath := List Text

namespace ModulePath

def code (path : ModulePath) : Text := Text.join "." path

end ModulePath

/-- A statement on one line. -/
inductive Simple
  | pass
  | result (value : Option Expr)
  | jump (word : Text)
  | print (arguments : List Expr)
  | assertion (arguments : List Expr)
  | throwNew (name : Text) (arguments : List Expr)
  | throwValue (value : Expr)
  | modules (paths : List ModulePath)
  | symbols (path : ModulePath) (names : List Text)
  | constant (name : Text) (value : Expr)
  | declaration (type : TypeExpr) (bindings : List Binding)
  | assignment (target : Target) (operator : Text) (value : Expr)
  | call (target : Target)

namespace Simple

def body : Simple → Text
  | pass => "\x7b\x7d"
  | result none => "return"
  | result (some value) => "return " ++ value.code
  | jump word => word
  | print arguments => "print(" ++ commaSeparated (Expr.codes arguments) ++ ")"
  | assertion arguments => "assert(" ++ commaSeparated (Expr.codes arguments) ++ ")"
  | throwNew name arguments =>
    "throw new " ++ name ++ "(" ++ commaSeparated (Expr.codes arguments) ++ ")"
  | throwValue value => "throw " ++ value.code
  | modules paths => "import " ++ commaSeparated (paths.map ModulePath.code)
  | symbols path names => "import " ++ path.code ++ " : " ++ commaSeparated names
  | constant name value => "enum " ++ name ++ " = " ++ value.code
  | declaration type bindings => type.code ++ " " ++ commaSeparated (bindings.map Binding.code)
  | assignment target operator value => target.code ++ " " ++ operator ++ " " ++ value.code
  | call target => target.code

/-- The statement in D. An empty one is a pair of braces and takes no semicolon. -/
def code (s : Simple) : Text :=
  match s with
  | pass => s.body
  | _ => s.body ++ ";"

end Simple

/-! ## Headers -/

/-- What opens a block. -/
inductive Header
  | ifThen (condition : Expr)
  | elseIf (condition : Expr)
  | otherwise
  | whileLoop (condition : Expr)
  | forEach (names : List Text) (sequence : Expr)
  | switchOn (subject : Expr)
  | attempt
  | catching (type : TypeExpr) (name : Option Text)
  | always
  | unittest
  | constructing (parameters : List ParameterGroup)
  | function (header : FunctionHeader)
  | userType (header : UserTypeHeader)
  | attributes (word : Text)

namespace Header

def tag : Header → Tag
  | ifThen _ | elseIf _ => .ifBlock
  | otherwise => .elseBlock
  | whileLoop _ => .whileLoop
  | forEach .. => .forLoop
  | switchOn _ => .switchBlock
  | attempt => .tryBlock
  | catching .. => .exceptBlock
  | always => .finallyBlock
  | unittest => .unittest
  | constructing _ | function _ => .function
  | userType header => if header.parameters.isEmpty then .userType else .template
  | attributes word => .attributes word

def code : Header → Text
  | ifThen condition => "if (" ++ condition.code ++ ")"
  | elseIf condition => "else if (" ++ condition.code ++ ")"
  | otherwise => "else"
  | whileLoop condition => "while (" ++ condition.code ++ ")"
  | forEach names sequence =>
    "foreach (" ++ commaSeparated names ++ "; " ++ sequence.code ++ ")"
  | switchOn subject => "switch (" ++ subject.code ++ ")"
  | attempt => "try"
  | catching type none => "catch (" ++ type.code ++ ")"
  | catching type (some name) => "catch (" ++ type.code ++ " " ++ name ++ ")"
  | always => "finally"
  | unittest => "unittest"
  | constructing parameters => "this(" ++ ParameterGroup.listCode parameters ++ ")"
  | function header => header.code
  | userType header => header.code
  | attributes word => word

end Header

/-- A label of a switch. -/
inductive Label
  | values (values : List Expr)
  | fallback

namespace Label

def code : Label → Text
  | values vs => "case " ++ commaSeparated (Expr.codes vs)
  | fallback => "default"

end Label

/-! ## Ends of lines -/

/-- A comment to the end of a line, for documentation or not. -/
structure LineComment where
  documents : Bool
  text : Text
  deriving DecidableEq, Repr

namespace LineComment

def sign (c : LineComment) : Text := if c.documents then "///" else "//"

def fragment (c : LineComment) : Fragment :=
  if c.text.isEmpty then [.code c.sign] else [.code (c.sign ++ " "), .comment c.text]

def trailing : Option LineComment → Fragment
  | none => []
  | some c => .code " " :: c.fragment

end LineComment

/-- What a dedent to `level` closes: a block, or a case body, which may need a `break`. -/
inductive Closing
  | block (level : Int)
  | caseBody (needsBreak : Bool) (level : Int)
  deriving DecidableEq, Repr

namespace Closing

def fragment : Closing → Fragment
  | block level => [.lineBreak level, .code "\x7d"]
  | caseBody true level => [.lineBreak (level + 1), .code "break;"]
  | caseBody false _ => []

end Closing

/-- How the line of a simple statement ends. -/
inductive Ending
  | input
  | line (level : Int)
  | closing (c : Closing)
  deriving DecidableEq, Repr

namespace Ending

def fragment : Ending → Fragment
  | input => []
  | line level => [.lineBreak level]
  | closing c => c.fragment

end Ending

/-- A case label with the comment and the line break after it. -/
structure LabelLine where
  label : Label
  comment : Option LineComment
  level : Int

namespace LabelLine

def fragment (l : LabelLine) : Fragment :=
  .code (l.label.code ++ ":") :: LineComment.trailing l.comment ++ [.lineBreak l.level]

end LabelLine

/-! ## Clauses -/

/-- What is translated in one go. -/
inductive Clause
  | start
  | newline (level : Int)
  | dedent (closing : Closing)
  | lineComment (comment : LineComment)
  | blockComment (documents : Bool) (level : Int) (lines : List Text)
  | passthrough (level : Int) (lines : List Text)
  | simple (statement : Simple) (comment : Option LineComment) (ending : Ending)
  | block (header : Header) (comment : Option LineComment) (level : Int)
  | labels (lines : List LabelLine)
  | attributed (word : Text) (clause : Clause)

namespace Clause

def copiedLine (level : Int) (line : Text) (piece : Text → Piece) : Fragment :=
  if line.isEmpty then [.lineBreak 0] else [.lineBreak level, piece line]

def fragment : Clause → Fragment
  | start => []
  | newline level => [.lineBreak level]
  | dedent closing => closing.fragment
  | lineComment comment => comment.fragment
  | blockComment documents level lines =>
    .code (if documents then "/**" else "/*") ::
      lines.flatMap (fun line => copiedLine (level + 1) line .comment) ++
      [.lineBreak level, .code "*/"]
  | passthrough _ [] => []
  | passthrough level (line :: lines) =>
    .verbatim line :: lines.flatMap fun line => copiedLine level line .verbatim
  | simple statement comment ending =>
    .code statement.code :: LineComment.trailing comment ++ ending.fragment
  | block header comment level =>
    .code (header.code ++ " \x7b") :: LineComment.trailing comment ++ [.lineBreak level]
  | labels lines => lines.flatMap LabelLine.fragment
  | attributed word clause => .code (word ++ " ") :: clause.fragment

def render (unit : Text) (c : Clause) : Text := c.fragment.render unit

end Clause

end Offside
