/-
Parsing declarations and the parts of statements that no open block can influence.
-/
import Offside.Parse.Expr
import Offside.Syntax.Clause

set_option autoImplicit false

namespace Offside

namespace Parse

/-! ## Names -/

def identifier : Parse Text := return (← nextOf .identifier "identifier").text

def word (wanted : Text) : Parse Text := do
  let t ← next wanted
  if !t.isWord then reject (.missing wanted t)
  return t.text

def modulePathIn : Nat → Parse ModulePath
  | 0 => stopOverBudget
  | budget + 1 => do
    let segment ← word "module name"
    if ← accept "." then return segment :: (← modulePathIn budget) else return [segment]

def modulePath : Parse ModulePath := bounded modulePathIn

def moduleImport : Parse Simple := return .modules (← bounded (commaList modulePath))

def symbolImport : Parse Simple := do
  let path ← modulePath
  expect "import"
  return .symbols path (← bounded (commaList (word "identifier")))

/-! ## Variables -/

/-- A name with an optional initial value. No other assignment operator may follow the name. -/
def variableBinding : Parse Binding := do
  let name ← identifier
  if ← atCategory .assignment then
    let op ← pop
    if op.text ≠ "=" then reject (.unexpected op)
    return { name := name, value := some (← expression) }
  else return { name := name }

def variableDeclaration (t : Token) : Parse Simple := do
  let type ← typeFrom t
  return .declaration type (← bounded (commaList variableBinding))

/-! ## Parameters -/

def parameterBinding (name : Text) : Parse Binding := do
  if ← accept "=" then return { name := name, value := some (← expression) }
  else return { name := name }

def storageFrom : Nat → Token → Parse (List Text × Token)
  | 0, _ => stopOverBudget
  | budget + 1, t => do
    if t.category = .attributeWord then
      let (storage, type) ← storageFrom budget (← next "type")
      return (t.text :: storage, type)
    else return ([], t)

/-- One parameter, added to the groups before it, of which the latest comes first. A parameter
without a type joins the latest group. -/
def parameter (groups : List ParameterGroup) : Parse (List ParameterGroup) := do
  let t ← next "identifier"
  if t.category = .identifier then
    match groups with
    | [] => reject (.missing "type" t)
    | g :: gs =>
      let b ← parameterBinding t.text
      return { g with bindings := g.bindings ++ [b] } :: gs
  else
    let (storage, type) ← bounded fun budget => storageFrom budget t
    let type ← typeFrom type
    let b ← parameterBinding (← identifier)
    return { storage := storage, type := type, bindings := [b] } :: groups

/-- The parameters up to the closing parenthesis, added to the groups before them. -/
def parametersIn : Nat → List ParameterGroup → Parse (List ParameterGroup)
  | 0, _ => stopOverBudget
  | budget + 1, groups => do
    let groups ← parameter groups
    let separator ← next ")"
    if separator.is ")" then return groups.reverse
    else if separator.is "," then parametersIn budget groups
    else reject (.missing ")" separator)

def parameters : Parse (List ParameterGroup) := do
  expect "("
  if ← accept ")" then return [] else bounded fun budget => parametersIn budget []

/-! ## Headers -/

def functionHeader (word : FunctionWord) (inClass : Bool) (bound : List Text) :
    Parse FunctionHeader := do
  let name ← identifier
  let parameters ← if ← atText "(" then parameters else pure []
  let result ←
    if ← atText "->" then do
      let arrow ← pop
      if word = .procedure then reject (.context "a procedure has no return type" arrow)
      some <$> typeFrom (← next "type")
    else pure none
  return { word, inClass, name, parameters, result, bound }

def parent : Parse TypeExpr := do typeFrom (← nextOf .classIdentifier "class-identifier")

/-- The header of a class, struct or interface after its first word, without its colon. -/
def userTypeHeader (word : UserType) : Parse UserTypeHeader := do
  let name ← nextOf .classIdentifier "class-identifier"
  let parameters ←
    if ← accept "(" then
      bounded (listTo ")" do return (← nextOf .templateType "template type").text)
    else pure []
  let parents ←
    if ← atText "inherits" then do
      let inherits ← pop
      if word = .structType then reject (.context "a struct cannot inherit" inherits)
      bounded (commaList parent)
    else pure []
  return { word, name := name.text, parameters, parents }

/-- The header of a loop over a sequence, with one or two names, after its first word. -/
def forHeader : Parse Header := do
  let first ← identifier
  let names ← if ← accept "," then do pure [first, ← identifier] else pure [first]
  expect "in"
  return .forEach names (← expression)

def catchHeader : Parse Header := do
  let type ← typeFrom (← next "type")
  if ← atCategory .identifier then return .catching type (some (← pop).text)
  else return .catching type none

/-- What is thrown, after the first word. A class that is called is instantiated. -/
def raised : Parse Simple := do
  let t ← next "expression"
  if t.category = .classIdentifier && (← atText "(") then return .throwNew t.text (← arguments)
  else return .throwValue (← expressionFrom t)

/-! ## Comments -/

def commentText : Parse Text := do
  match ← peek? with
  | some t => if t.raw then return (← pop).text else return []
  | none => return []

def lineComment (sign : Token) : Parse LineComment :=
  return { documents := sign.text == "#.", text := ← commentText }

def trailingComment : Parse (Option LineComment) := do
  match ← peek? with
  | some t => if t.isCommentSign then return some (← lineComment (← pop)) else return none
  | none => return none

def rawLinesIn : Nat → Parse (List Text)
  | 0 => stopOverBudget
  | budget + 1 => do
    let t ← next Marker.dedent.text
    if t.raw then return t.text :: (← rawLinesIn budget)
    else if t.is Marker.newline.text then rawLinesIn budget
    else if t.is Marker.dedent.text then return []
    else reject (.unexpected t)

end Parse

end Offside
