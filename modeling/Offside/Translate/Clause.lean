/-
Translating one clause.

`Translate.clause` starts from a token that has been read. The category of the token decides what is
translated, and the open scopes decide whether it is admitted. Every clause but a comment, a line
marker and a continuation (`else`, `except`, `finally`) ends the chance to continue the block closed
before it.
-/
import Offside.Parse.Declaration
import Offside.Suggestion
import Offside.Text.Blank
import Offside.Translate.Session

set_option autoImplicit false

namespace Offside

namespace Translate

open Parse (next peek? atText accept atCategory atLineEnd expect expression expressionList bounded
  trailingComment)

/-! ## Ends of lines and blocks -/

/-- Closes the innermost scope at a dedent. A case body needs a `break` unless its last statement is
a jump. -/
def closeBlock (t : Token) : Translate Closing := do
  if (← get).scopes.isEmpty then rejectContext t "dedent with no open block"
  let tag ← closeScope
  if tag = .userType ∨ tag = .template then closeGenerics
  let jumped := (← get).terminated
  setTerminated false
  if tag = .caseBody then return .caseBody (!jumped) t.level else return .block t.level

def finish (statement : Simple) : Translate Clause := do
  let comment ← trailingComment
  if (← peek?).isNone then return .simple statement comment .input
  let t ← Parse.pop
  if t.is Marker.newline.text then return .simple statement comment (.line t.level)
  else if t.is Marker.dedent.text then
    return .simple statement comment (.closing (← closeBlock t))
  else reject (.unexpected t)

def openBlock (header : Header) : Translate Clause := do
  expect ":"
  let comment ← trailingComment
  let t ← next Marker.indent.text
  if !t.is Marker.indent.text then reject (.missing Marker.indent.text t)
  openScope header.tag
  return .block header comment t.level

/-! ## Raw blocks -/

/-- The lines of a raw block, which is open under `tag` while they are read. -/
def rawBlock (tag : Tag) : Translate (List Text) := do
  discard (next Marker.indent.text)
  openScope tag
  let lines ← bounded Parse.rawLinesIn
  discard closeScope
  return lines

/-- A comment that starts a line: a line comment, or a block if an indented raw block follows. -/
def comment (t : Token) : Translate Clause := do
  if ← atText Marker.indent.text then
    return .blockComment (t.text == "#.") t.level (← rawBlock .comment)
  else return .lineComment (← Parse.lineComment t)

def jumpWords : List Text := ["break", "continue", "return", "throw", "goto"]

def endsInJump (line : Text) : Bool :=
  let line := Text.trim line
  jumpWords.any fun w => line == w ++ ";" || (Text.after? (w ++ " ") line).isSome

def passthrough (t : Token) : Translate Clause := do
  let opener ← if ← atText ":" then Parse.pop else pure t
  if !(← atText Marker.indent.text) then Parse.rejectNext Marker.indent.text
  let lines ← rawBlock .passthrough
  setTerminated ((lines.getLast?.map endsInJump).getD false)
  return .passthrough opener.level lines

/-! ## Statements -/

def statement (w : StatementWord) (t : Token) : Translate Clause := do
  match w with
  | .returnWord =>
    if !(← inside [.function]) then rejectContext t "'return' outside of a function"
    let value ← if ← atLineEnd then pure none else some <$> expression
    setTerminated true
    finish (.result value)
  | .breakWord | .continueWord =>
    if !(← inside [.forLoop, .whileLoop]) then
      rejectContext t ("'" ++ t.text ++ "' outside of a loop")
    setTerminated true
    finish (.jump t.text)
  | .passWord => finish .pass
  | .printWord =>
    Parse.require .print
    let arguments ← if ← atLineEnd then pure [] else expressionList
    finish (.print arguments)
  | .assertWord =>
    let arguments ← expressionList
    if 2 < arguments.length then
      rejectContext t "'assert' takes a condition and an optional message"
    finish (.assertion arguments)
  | .forWord => openBlock (← Parse.forHeader)
  | .whileWord => openBlock (.whileLoop (← expression))
  | .unittestWord => openBlock .unittest
  | .passthroughWord => passthrough t

/-- An assignment or a call. A lone word that is neither may be a misspelled keyword. -/
def identifierStatement (t : Token) : Translate Clause := do
  let accessors ← Parse.accessors
  let target : Target := { head := t.text, accessors := accessors }
  if ← atCategory .assignment then
    let op ← Parse.pop
    finish (.assignment target op.text (← expression))
  else if Accessor.endsInCall accessors && (← atLineEnd) then finish (.call target)
  else
    let e ← Parse.missingNext "="
    let suggestions := if accessors.isEmpty then Suggestion.suggest t.text else []
    reject { e with suggestions := suggestions }

/-- Case labels up to the one that has a body. A label without a body falls through to the next. -/
def labelsIn : Nat → Token → Translate (List LabelLine)
  | 0, _ => Parse.stopOverBudget
  | budget + 1, t => do
    if (← get).scopes.top? ≠ some .switchBlock then
      rejectContext t ("'" ++ t.text ++ "' outside of a switch")
    let label ← if t.is "case" then Label.values <$> expressionList else pure .fallback
    expect ":"
    let comment ← trailingComment
    let marker ← next Marker.indent.text
    let line : LabelLine := { label := label, comment := comment, level := marker.level }
    if marker.is Marker.indent.text then
      openScope .caseBody
      return [line]
    else if marker.is Marker.newline.text then
      let t ← next "case"
      if !(t.is "case" || t.is "default") then reject (.missing "case" t)
      return line :: (← labelsIn budget t)
    else reject (.missing Marker.indent.text marker)

def conditional (w : Conditional) (t : Token) : Translate Clause := do
  match w with
  | .ifWord =>
    forgetPrevious
    openBlock (.ifThen (← expression))
  | .elseWord =>
    if (← get).scopes.previous ≠ some .ifBlock then
      rejectContext t "'else' without a preceding 'if' block"
    forgetPrevious
    if ← accept "if" then openBlock (.elseIf (← expression)) else openBlock .otherwise
  | .switchWord =>
    forgetPrevious
    openBlock (.switchOn (← expression))
  | .caseWord | .defaultWord =>
    forgetPrevious
    return .labels (← labelsIn ((← get).remaining + 1) t)

def afterTry : Translate Bool := do
  let previous := (← get).scopes.previous
  return previous = some .tryBlock || previous = some .exceptBlock

def exception (w : ExceptionWord) (t : Token) : Translate Clause := do
  match w with
  | .tryWord =>
    forgetPrevious
    openBlock .attempt
  | .exceptWord =>
    if !(← afterTry) then rejectContext t "'except' without a preceding 'try' block"
    forgetPrevious
    openBlock (← Parse.catchHeader)
  | .finallyWord =>
    if !(← afterTry) then rejectContext t "'finally' without a preceding 'try' block"
    forgetPrevious
    openBlock .always
  | .raiseWord =>
    forgetPrevious
    let thrown ← Parse.raised
    setTerminated true
    finish thrown

/-! ## Declarations -/

def library (w : LibraryWord) : Translate Clause := do
  match w with
  | .importWord => finish (← Parse.moduleImport)
  | .fromWord => finish (← Parse.symbolImport)

def constructorClause (w : ConstructorWord) (t : Token) : Translate Clause := do
  match w with
  | .thisWord =>
    if (← atText "(") && !(← inside [.function]) then
      if !(← inside [.userType, .template]) then rejectContext t "constructor outside of a class"
      openBlock (.constructing (← Parse.parameters))
    else identifierStatement t
  | .superWord => identifierStatement t
  | .newWord => reject (.unexpected t)

def function (w : FunctionWord) (t : Token) : Translate Clause := do
  let inClass ← inside [.userType, .template]
  if w = .method && !inClass then rejectContext t "'method' outside of a class"
  let header ← Parse.functionHeader w inClass (← get).generics.flatten
  openBlock (.function header)

def userType (w : UserType) : Translate Clause := do
  let header ← Parse.userTypeHeader w
  let clause ← openBlock (.userType header)
  openGenerics header.parameters
  return clause

def declaration (t : Token) : Translate Clause := do finish (← Parse.variableDeclaration t)

/-! ## Clauses -/

/-- A clause that is a single line marker. The marker of the start stands only at the start. -/
def marker (m : Marker) (first : Bool) (t : Token) : Translate Clause := do
  match m with
  | .begin => if first then return .start else reject (.unexpected t)
  | .newline => return .newline t.level
  | .dedent => return .dedent (← closeBlock t)
  | .indent => reject (.unexpected t)

/-- A clause that starts an unrelated statement; attributes are left to the caller. -/
def unrelated (t : Token) : Translate Clause := do
  match t.lexeme with
  | .keyword (.libraryWord w) => library w
  | .keyword (.statement w) => statement w t
  | .keyword (.constructorWord w) => constructorClause w t
  | .shape .constant =>
    if ← accept "=" then finish (.constant t.text (← expression)) else identifierStatement t
  | .shape .classIdentifier =>
    if (← atText ".") || (← atText "(") then identifierStatement t else declaration t
  | .keyword .typeWord => declaration t
  | .shape .templateType =>
    if !(← inside [.template]) then
      rejectContext t ("template type '" ++ t.text ++ "' outside of a template class")
    declaration t
  | .keyword (.functionWord w) => function w t
  | .plain => identifierStatement t
  | .keyword (.userType w) => userType w
  | _ => reject (.unexpected t)

/-- The clause that starts with a token. Attributes nest, each of them spending one unit of the
budget. -/
def clauseIn : Nat → Token → Translate Clause
  | 0, _ => Parse.stopOverBudget
  | budget + 1, t => do
    let first ← recordDispatch t
    if t.raw then reject (.unexpected t)
    match t.lexeme with
    | .keyword (.marker m) => marker m first t
    | .shape .punctuation => if t.isCommentSign then comment t else reject (.unexpected t)
    | .keyword (.conditional w) =>
      setTerminated false
      conditional w t
    | .keyword (.exceptionWord w) =>
      setTerminated false
      exception w t
    | .keyword .attributeWord =>
      forgetPrevious
      setTerminated false
      if ← atText ":" then openBlock (.attributes t.text)
      else
        let after ← next "declaration"
        if after.raw || after.category.isLineMarker then reject (.unexpected after)
        return .attributed t.text (← clauseIn budget after)
    | _ =>
      forgetPrevious
      setTerminated false
      unrelated t

def clause (t : Token) : Translate Clause := do clauseIn ((← get).remaining + 1) t

end Translate

end Offside
