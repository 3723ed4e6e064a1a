/-
Keywords.

A keyword is found by its exact spelling. Sets whose words are translated differently have one
constructor for each word; in the others the word itself is all that is written to the output, so
the set alone is recorded.
-/
import Offside.Lexicon.Category

set_option autoImplicit false

namespace Offside

/-- Synthetic tokens between the lines of the source. -/
inductive Marker
  | newline
  | indent
  | dedent
  | begin
  deriving DecidableEq, Repr

/-- Words and signs that compare two operands. -/
inductive Comparator
  | lessThan
  | moreThan
  | equalTo
  | same
  | member
  | lt
  | gt
  | le
  | ge
  | eq
  | ne
  deriving DecidableEq, Repr

inductive Conditional
  | ifWord
  | elseWord
  | switchWord
  | caseWord
  | defaultWord
  deriving DecidableEq, Repr

inductive ConstructorWord
  | thisWord
  | superWord
  | newWord
  deriving DecidableEq, Repr

inductive ExceptionWord
  | tryWord
  | exceptWord
  | finallyWord
  | raiseWord
  deriving DecidableEq, Repr

inductive FunctionWord
  | function
  | method
  | procedure
  deriving DecidableEq, Repr

inductive LibraryWord
  | importWord
  | fromWord
  deriving DecidableEq, Repr

inductive Logical
  | and
  | or
  | not
  deriving DecidableEq, Repr

inductive StatementWord
  | returnWord
  | breakWord
  | continueWord
  | passWord
  | printWord
  | forWord
  | whileWord
  | assertWord
  | passthroughWord
  | unittestWord
  deriving DecidableEq, Repr

inductive UserType
  | classType
  | structType
  | interfaceType
  deriving DecidableEq, Repr

/-- What a keyword stands for. -/
inductive Keyword
  | marker (m : Marker)
  | assignment
  | attributeWord
  | comparator (c : Comparator)
  | conditional (w : Conditional)
  | constructorWord (w : ConstructorWord)
  | exceptionWord (w : ExceptionWord)
  | functionWord (w : FunctionWord)
  | libraryWord (w : LibraryWord)
  | logical (w : Logical)
  | operator
  | statement (w : StatementWord)
  | typeWord
  | userType (w : UserType)
  deriving DecidableEq, Repr

namespace Marker

/-- The spelling of a marker. No source text scans to it, because angle brackets never join words. -/
def text : Marker → Text
  | newline => "<newline>"
  | indent => "<indent>"
  | dedent => "<dedent>"
  | begin => "<begin>"

def all : List Marker := [newline, indent, dedent, begin]

def category : Marker → Category
  | newline => .newline
  | indent => .indent
  | dedent => .dedent
  | begin => .begin

end Marker

namespace Comparator

def text : Comparator → Text
  | lessThan => "less than"
  | moreThan => "more than"
  | equalTo => "equal to"
  | same => "is"
  | member => "in"
  | lt => "<"
  | gt => ">"
  | le => "<="
  | ge => ">="
  | eq => "=="
  | ne => "!="

def all : List Comparator :=
  [lessThan, moreThan, equalTo, same, member, lt, gt, le, ge, eq, ne]

end Comparator

namespace Keyword

def category : Keyword → Category
  | marker m => m.category
  | assignment => .assignment
  | attributeWord => .attributeWord
  | comparator _ => .comparator
  | conditional _ => .conditional
  | constructorWord _ => .constructorWord
  | exceptionWord _ => .exceptionWord
  | functionWord _ => .functionWord
  | libraryWord _ => .libraryWord
  | logical _ => .logical
  | operator => .operator
  | statement _ => .statement
  | typeWord => .typeWord
  | userType _ => .userType

def set (k : Keyword) (words : List Text) : List (Text × Keyword) := words.map fun w => (w, k)

def table : List (Text × Keyword) := List.flatten [
  Marker.all.map (fun m => (m.text, marker m)),
  set assignment ["=", "+=", "-=", "*=", "/=", "%=", "~=", "&=", "|=", "^=", "<<=", ">>="],
  set attributeWord
    ["public", "private", "protected", "package", "export", "static", "override", "abstract",
     "final", "const", "immutable", "shared", "synchronized", "extern", "ref", "scope", "lazy",
     "nothrow", "pure"],
  Comparator.all.map (fun c => (c.text, comparator c)),
  [("if", conditional .ifWord), ("else", conditional .elseWord),
   ("switch", conditional .switchWord), ("case", conditional .caseWord),
   ("default", conditional .defaultWord),
   ("this", constructorWord .thisWord), ("super", constructorWord .superWord),
   ("new", constructorWord .newWord),
   ("try", exceptionWord .tryWord), ("except", exceptionWord .exceptWord),
   ("finally", exceptionWord .finallyWord), ("raise", exceptionWord .raiseWord),
   ("function", functionWord .function), ("method", functionWord .method),
   ("procedure", functionWord .procedure),
   ("import", libraryWord .importWord), ("from", libraryWord .fromWord),
   ("and", logical .and), ("or", logical .or), ("not", logical .not)],
  set operator ["+", "-", "*", "/", "%", "~", "&", "|", "^", "^^", "<<", ">>"],
  [("return", statement .returnWord), ("break", statement .breakWord),
   ("continue", statement .continueWord), ("pass", statement .passWord),
   ("print", statement .printWord), ("for", statement .forWord),
   ("while", statement .whileWord), ("assert", statement .assertWord),
   ("passthrough", statement .passthroughWord), ("unittest", statement .unittestWord)],
  set typeWord
    ["bool", "byte", "ubyte", "short", "ushort", "int", "uint", "long", "ulong", "float", "double",
     "real", "char", "wchar", "dchar", "string", "wstring", "dstring", "size_t", "void", "auto"],
  [("class", userType .classType), ("struct", userType .structType),
   ("interface", userType .interfaceType)]]

def ofText? (t : Text) : Option Keyword := table.lookup t

/-- The spellings of one category in byte-wise order; none for a category without keywords. -/
def ofCategory? (c : Category) : Option (List Text) :=
  match (table.filter fun entry => entry.2.category = c).map Prod.fst with
  | [] => none
  | words => some (words.mergeSort Text.le)

/-- The spellings of all keywords but the line markers, in byte-wise order. -/
def spellings : List Text :=
  ((table.filter fun entry => !entry.2.category.isLineMarker).map Prod.fst).mergeSort Text.le

end Keyword

end Offside
