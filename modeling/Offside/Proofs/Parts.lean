/-
Parts of programs that are entered from more than one place.

What a program goes on with after something optional has no name in it. Here these parts get names,
and each equation cuts a program where one starts. They hold by computation.
-/
import Offside.Proofs.Parse.Basic
import Offside.Translate.Clause

set_option autoImplicit false

namespace Offside

namespace Parse

def operatorAt (t : Token) : Parse (Option BinaryOp) :=
  match t.lexeme with
  | .keyword .operator => do
    discard pop
    return some (.arithmetic t.text)
  | .keyword (.comparator c) => do
    discard pop
    return some (.compare false c)
  | .keyword (.logical .and) => do
    discard pop
    return some .and
  | .keyword (.logical .or) => do
    discard pop
    return some .or
  | .keyword (.logical .not) => do
    discard pop
    let t ← next "comparator"
    match t.lexeme with
    | .keyword (.comparator c) => return some (.compare true c)
    | _ => reject (.missing "comparator" t)
  | _ => return none

theorem binaryOp?_eq : binaryOp? = (do
    if ← accept ".." then return some .range
    else match ← peek? with
      | none => return none
      | some t => operatorAt t) := rfl

def operatorFrom (t : Token) : Parse (Option BinaryOp) :=
  match t.lexeme with
  | .keyword .operator => return some (.arithmetic t.text)
  | .keyword (.comparator c) => return some (.compare false c)
  | .keyword (.logical .and) => return some .and
  | .keyword (.logical .or) => return some .or
  | .keyword (.logical .not) => do
    let t ← next "comparator"
    match t.lexeme with
    | .keyword (.comparator c) => return some (.compare true c)
    | _ => reject (.missing "comparator" t)
  | _ => return none

theorem binaryOp?_eq_popWhen : binaryOp? = (do
    if ← accept ".." then return some .range
    else popWhen (·.category.isBinary) operatorFrom (return none)) := by
  rw [binaryOp?_eq]
  congr
  funext b
  cases b with
  | true => rfl
  | false =>
    funext r
    change (peek? >>= _) r = popWhen _ _ _ r
    rw [bind_of_ok _ (peek?_eq r), popWhen]
    rcases hr : r.stream.rest with _ | ⟨t, rest⟩
    · rfl
    · have hpop : ∀ p : Parse (Option BinaryOp), (discard pop >>= fun _ => p) r = p (r.advance t rest) := by
        intro p
        rw [discard_bind, bind_of_ok _ (pop_eq hr)]
      dsimp only [List.head?_cons]
      rw [operatorAt, operatorFrom, Token.category]
      generalize t.lexeme = l
      cases l with
      | plain => rfl
      | shape s => cases s <;> rfl
      | keyword k =>
        cases k with
        | logical w => cases w <;> exact hpop _
        | operator => exact hpop _
        | comparator c => exact hpop _
        | marker m => cases m <;> rfl
        | _ => rfl

def sliceFrom (bound : Parse Expr) (low : Option Expr) : Parse Accessor := do
  discard pop
  let high ← if ← atText "]" then pure none else some <$> bound
  expect "]"
  return .slice low high

theorem bracketIn_succ (n : Nat) : bracketIn (n + 1) = (do
    if ← accept "]" then return .whole
    else if ← atText ":" then sliceFrom (expressionIn n) none
    else
      let position ← expressionIn n
      if !(← atText ":") then
        expect "]"
        return .index position
      else sliceFrom (expressionIn n) (some position)) := by
  rw [bracketIn]
  simp only [sliceFrom, bind_map_left, pure_bind]

def dimensionsFrom (more : Parse (List (Option Expr))) (size : Option Expr) :
    Parse (List (Option Expr)) := do
  if ← accept "]" then return [size]
  else if ← accept "," then return size :: (← more)
  else rejectNext "]"

theorem dimensionListIn_succ (n : Nat) : dimensionListIn (n + 1) = (do
    if (← atText "]") || (← atText ",") then dimensionsFrom (dimensionListIn n) none
    else dimensionsFrom (dimensionListIn n) (some (← expressionIn n))) := by
  rw [dimensionListIn]
  simp only [bind_map_left, pure_bind]
  rfl

def resultFrom (word : FunctionWord) (inClass : Bool) (bound : List Text) (name : Text)
    (parameters : List ParameterGroup) : Parse FunctionHeader := do
  let result ←
    if ← atText "->" then do
      let arrow ← pop
      if word = .procedure then reject (.context "a procedure has no return type" arrow)
      some <$> typeFrom (← next "type")
    else pure none
  return { word, inClass, name, parameters, result, bound }

theorem functionHeader_eq (word : FunctionWord) (inClass : Bool) (bound : List Text) :
    functionHeader word inClass bound = (do
      let name ← identifier
      if ← atText "(" then resultFrom word inClass bound name (← parameters)
      else resultFrom word inClass bound name []) := rfl

def parentsFrom (word : UserType) (name : Text) (parameters : List Text) :
    Parse UserTypeHeader := do
  let parents ←
    if ← atText "inherits" then do
      let inherits ← pop
      if word = .structType then reject (.context "a struct cannot inherit" inherits)
      bounded (commaList parent)
    else pure []
  return { word, name, parameters, parents }

theorem userTypeHeader_eq (word : UserType) : userTypeHeader word = (do
      let name ← nextOf .classIdentifier "class-identifier"
      if ← accept "(" then
        parentsFrom word name.text
          (← bounded (listTo ")" do return (← nextOf .templateType "template type").text))
      else parentsFrom word name.text []) := rfl

def sequenceFrom (names : List Text) : Parse Header := do
  expect "in"
  return .forEach names (← expression)

theorem forHeader_eq : forHeader = (do
    let first ← identifier
    if ← accept "," then sequenceFrom [first, ← identifier] else sequenceFrom [first]) := rfl

theorem commentText_eq_popWhen : commentText = popWhen Token.raw (fun t => return t.text) (return []) :=
  (popWhen_eq _ _ _).symm

theorem trailingComment_eq_popWhen : trailingComment =
    popWhen Token.isCommentSign (fun t => return some (← lineComment t)) (return none) :=
  (popWhen_eq _ _ _).symm

end Parse

namespace Translate

open Parse (next atText expect expressionList trailingComment)

def copyFrom (level : Int) : Translate Clause := do
  if !(← atText Marker.indent.text) then Parse.rejectNext Marker.indent.text
  let lines ← rawBlock .passthrough
  setTerminated ((lines.getLast?.map endsInJump).getD false)
  return .passthrough level lines

theorem passthrough_eq (t : Token) : passthrough t = (do
    if ← atText ":" then copyFrom (← Parse.pop).level else copyFrom t.level) := rfl

/-- A case label from the end of its values on. The labels that follow a label without a body are
read by `more`. -/
def labelEnd (more : Token → Translate (List LabelLine)) (label : Label) :
    Translate (List LabelLine) := do
  expect ":"
  let comment ← trailingComment
  let marker ← next Marker.indent.text
  let line : LabelLine := { label := label, comment := comment, level := marker.level }
  if marker.is Marker.indent.text then
    openScope .caseBody
    return [line]
  else if marker.is Marker.newline.text then
    let t ← next "case"
    if !(t.is "case" || t.is "default") then reject (.missing "case" t)
    return line :: (← more t)
  else reject (.missing Marker.indent.text marker)

theorem labelsIn_succ (n : Nat) (t : Token) : labelsIn (n + 1) t = (do
    if (← get).scopes.top? ≠ some .switchBlock then
      rejectContext t ("'" ++ t.text ++ "' outside of a switch")
    if t.is "case" then labelEnd (labelsIn n) (.values (← expressionList))
    else labelEnd (labelsIn n) .fallback) := by
  rw [labelsIn]
  simp only [bind_map_left, pure_bind]
  rfl

def labels (t : Token) : Translate Clause := do
  forgetPrevious
  return .labels (← labelsIn ((← get).remaining + 1) t)

end Translate

end Offside
