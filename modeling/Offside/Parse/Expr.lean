/-
Parsing expressions and types.

The parsers for expressions, operands, accessors, types and template arguments call each other. Each
call spends one unit of the budget, and every cycle among them reads a token. `Parse.expression` and
`Parse.typeFrom` start them with a budget that the tokens left cannot use up.
-/
import Offside.Parse.Basic
import Offside.Syntax.Expr

set_option autoImplicit false

namespace Offside

namespace Parse

/-- Reads an operator that joins two operands, if one comes next. The word `not` must be followed by
a comparator, which it negates. -/
def binaryOp? : Parse (Option BinaryOp) := do
  if ← accept ".." then return some .range
  match ← peek? with
  | none => return none
  | some t =>
    match t.lexeme with
    | .keyword .operator =>
      discard pop
      return some (.arithmetic t.text)
    | .keyword (.comparator c) =>
      discard pop
      return some (.compare false c)
    | .keyword (.logical .and) =>
      discard pop
      return some .and
    | .keyword (.logical .or) =>
      discard pop
      return some .or
    | .keyword (.logical .not) =>
      discard pop
      let t ← next "comparator"
      match t.lexeme with
      | .keyword (.comparator c) => return some (.compare true c)
      | _ => reject (.missing "comparator" t)
    | _ => return none

/-- What can begin an operand. -/
inductive OperandStart
  | minus
  | negation
  | group
  | array
  | new
  | atom

def operandStart? (t : Token) : Option OperandStart :=
  match t.lexeme with
  | .keyword .operator => if t.text = "-" then some .minus else none
  | .keyword (.logical .not) => some .negation
  | .keyword (.constructorWord .newWord) => some .new
  | .keyword (.constructorWord _) => some .atom
  | .keyword .typeWord => some .atom
  | .keyword _ => none
  | .shape .punctuation =>
    if t.text = "(" then some .group else if t.text = "[" then some .array else none
  | .shape _ => some .atom
  | .plain => if t.raw then none else some .atom

mutual

def expressionIn : Nat → Parse Expr
  | 0 => stopOverBudget
  | budget + 1 => do expressionFromIn budget (← next "expression")

/-- An expression whose first token has been read. The helper of an operator is recorded after those
of its right operand. -/
def expressionFromIn : Nat → Token → Parse Expr
  | 0, _ => stopOverBudget
  | budget + 1, t => do
    let left ← operandIn budget t
    match ← binaryOp? with
    | none => return .single left
    | some op =>
      let right ← expressionIn budget
      if let some h := op.helper? then require h
      return .binary left op right

def operandIn : Nat → Token → Parse Operand
  | 0, _ => stopOverBudget
  | budget + 1, t => do
    match operandStart? t with
    | none => reject (.unexpected t)
    | some .minus => return .minus (← operandIn budget (← next "expression"))
    | some .negation => return .negation (← operandIn budget (← next "expression"))
    | some .new =>
      let type ← typeFromIn budget (← next "type")
      if ← atText "(" then return .newCall type (← argumentsIn budget) else return .new type
    | some .group =>
      let inner ← expressionIn budget
      expect ")"
      return .group inner (← many (accessorIn? budget) budget)
    | some .array =>
      let elements ← if ← accept "]" then pure [] else listTo "]" (elementIn budget) budget
      return .array elements (← many (accessorIn? budget) budget)
    | some .atom => return .atom t.text (← many (accessorIn? budget) budget)

def elementIn : Nat → Parse Element
  | 0 => stopOverBudget
  | budget + 1 => do
    let value ← expressionIn budget
    if ← accept ":" then return .entry value (← expressionIn budget) else return .item value

def accessorIn? : Nat → Parse (Option Accessor)
  | 0 => stopOverBudget
  | budget + 1 => do
    if ← accept "." then
      let name ← next "identifier"
      if !name.isWord then reject (.missing "identifier" name)
      return some (.member name.text)
    else if ← accept "[" then return some (← bracketIn budget)
    else if ← atText "(" then return some (.call (← argumentsIn budget))
    else if ← accept "!" then
      if ← accept "(" then
        return some (.instantiateAll (← listTo ")" (templateArgumentIn budget) budget))
      else return some (.instantiate (← templateArgumentIn budget))
    else return none

/-- The rest of an index or a slice after its opening bracket. There is one index to a pair of
brackets. -/
def bracketIn : Nat → Parse Accessor
  | 0 => stopOverBudget
  | budget + 1 => do
    if ← accept "]" then return .whole
    let low ← if ← atText ":" then pure none else some <$> expressionIn budget
    if let some position := low then
      if !(← atText ":") then
        expect "]"
        return .index position
    discard pop
    let high ← if ← atText "]" then pure none else some <$> expressionIn budget
    expect "]"
    return .slice low high

def argumentsIn : Nat → Parse (List Expr)
  | 0 => stopOverBudget
  | budget + 1 => do
    expect "("
    if ← accept ")" then return [] else listTo ")" (expressionIn budget) budget

def templateArgumentIn : Nat → Parse TemplateArgument
  | 0 => stopOverBudget
  | budget + 1 => do
    let t ← next "type"
    let c := t.category
    if c.isTypeName then return .type (← typeFromIn budget t)
    else if c.isLiteral || c = .identifier || c = .constant then return .word t.text
    else reject (.missing "type" t)

/-- A type whose name has been read: an optional template instantiation and groups of dimensions. -/
def typeFromIn : Nat → Token → Parse TypeExpr
  | 0, _ => stopOverBudget
  | budget + 1, t => do
    if !t.category.isTypeName then reject (.missing "type" t)
    if ← accept "!" then
      if ← accept "(" then
        let arguments ← listTo ")" (templateArgumentIn budget) budget
        return .appliedAll t.text arguments (← many (dimensionsIn? budget) budget)
      else
        let argument ← templateArgumentIn budget
        return .applied t.text argument (← many (dimensionsIn? budget) budget)
    else return .plain t.text (← many (dimensionsIn? budget) budget)

def dimensionsIn? : Nat → Parse (Option (List (Option Expr)))
  | 0 => stopOverBudget
  | budget + 1 => do
    if ← accept "[" then return some (← dimensionListIn budget) else return none

/-- The dimensions of a group after its opening bracket; each may be left open. -/
def dimensionListIn : Nat → Parse (List (Option Expr))
  | 0 => stopOverBudget
  | budget + 1 => do
    let isOpen := (← atText "]") || (← atText ",")
    let size ← if isOpen then pure none else some <$> expressionIn budget
    if ← accept "]" then return [size]
    else if ← accept "," then return size :: (← dimensionListIn budget)
    else rejectNext "]"

end

def expression : Parse Expr := bounded expressionIn

def expressionFrom (t : Token) : Parse Expr := bounded fun budget => expressionFromIn budget t

def expressionList : Parse (List Expr) := bounded (commaList expression)

def accessors : Parse (List Accessor) := bounded fun budget => many (accessorIn? budget) budget

def arguments : Parse (List Expr) := bounded argumentsIn

def typeFrom (t : Token) : Parse TypeExpr := bounded fun budget => typeFromIn budget t

end Parse

end Offside
