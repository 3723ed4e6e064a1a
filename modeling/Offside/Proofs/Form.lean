/-
Clauses that are a line or the header of a block.

Most clauses look at the scopes, parse their words, and end the line or open a block. `Parse.form`
is the second of these steps for all of them, and `Form.complete` the third.
-/
import Offside.Proofs.Parts

set_option autoImplicit false

namespace Offside

open Parse Translate

/-- What a clause asks about the open scopes, and the type parameters that are bound there. -/
structure View where
  inFunction : Bool
  inLoop : Bool
  inClass : Bool
  inTemplate : Bool
  bound : List Text

def Session.view (s : Session) : View where
  inFunction := s.scopes.contains [.function]
  inLoop := s.scopes.contains [.forLoop, .whileLoop]
  inClass := s.scopes.contains [.userType, .template]
  inTemplate := s.scopes.contains [.template]
  bound := s.generics.flatten

/-- In the second view at least the same functions and loops are open, and all else is the same. -/
structure View.Within (v v' : View) : Prop where
  function : v.inFunction → v'.inFunction
  loop : v.inLoop → v'.inLoop
  same : v' = { v with inFunction := v'.inFunction, inLoop := v'.inLoop }

/-- What a clause is, up to the end of its line. -/
inductive Form
  /-- A statement, which may be a jump. -/
  | line (jumps : Bool) (statement : Simple)
  | block (header : Header)
  /-- A block that binds type parameters. -/
  | userType (header : UserTypeHeader)

/-! ## Reading a form -/

namespace Parse

def targetForm (t : Token) : Parse Form := do
  let accessors ← accessors
  let target : Target := { head := t.text, accessors := accessors }
  if ← atCategory .assignment then
    let op ← pop
    return .line false (.assignment target op.text (← expression))
  else if Accessor.endsInCall accessors && (← atLineEnd) then return .line false (.call target)
  else
    let e ← missingNext "="
    let suggestions := if accessors.isEmpty then Suggestion.suggest t.text else []
    reject { e with suggestions := suggestions }

def declarationForm (t : Token) : Parse Form := return .line false (← variableDeclaration t)

def statementForm (w : StatementWord) (t : Token) (v : View) : Parse Form := do
  match w with
  | .returnWord =>
    if !v.inFunction then reject (.context "'return' outside of a function" t)
    if ← atLineEnd then return .line true (.result none)
    else return .line true (.result (some (← expression)))
  | .breakWord | .continueWord =>
    if !v.inLoop then reject (.context ("'" ++ t.text ++ "' outside of a loop") t)
    return .line true (.jump t.text)
  | .passWord => return .line false .pass
  | .printWord =>
    require .print
    if ← atLineEnd then return .line false (.print [])
    else return .line false (.print (← expressionList))
  | .assertWord =>
    let arguments ← expressionList
    if 2 < arguments.length then
      reject (.context "'assert' takes a condition and an optional message" t)
    return .line false (.assertion arguments)
  | .forWord => return .block (← forHeader)
  | .whileWord => return .block (.whileLoop (← expression))
  | .unittestWord => return .block .unittest
  | .passthroughWord => reject (.unexpected t)

/-- The clause that starts with a token of this lexeme, up to the end of its line. -/
def form (l : Lexeme) (t : Token) (v : View) : Parse Form := do
  match l with
  | .keyword (.libraryWord .importWord) => return .line false (← moduleImport)
  | .keyword (.libraryWord .fromWord) => return .line false (← symbolImport)
  | .keyword (.statement w) => statementForm w t v
  | .keyword (.constructorWord .thisWord) =>
    if (← atText "(") && !v.inFunction then
      if !v.inClass then reject (.context "constructor outside of a class" t)
      return .block (.constructing (← parameters))
    else targetForm t
  | .keyword (.constructorWord .superWord) => targetForm t
  | .shape .constant =>
    if ← accept "=" then return .line false (.constant t.text (← expression)) else targetForm t
  | .shape .classIdentifier =>
    if (← atText ".") || (← atText "(") then targetForm t else declarationForm t
  | .keyword .typeWord => declarationForm t
  | .shape .templateType =>
    if !v.inTemplate then
      reject (.context ("template type '" ++ t.text ++ "' outside of a template class") t)
    declarationForm t
  | .keyword (.functionWord w) =>
    if w = .method && !v.inClass then reject (.context "'method' outside of a class" t)
    return .block (.function (← functionHeader w v.inClass v.bound))
  | .plain => targetForm t
  | .keyword (.userType w) => return .userType (← userTypeHeader w)
  | .keyword (.conditional .ifWord) => return .block (.ifThen (← expression))
  | .keyword (.conditional .elseWord) =>
    if ← accept "if" then return .block (.elseIf (← expression)) else return .block .otherwise
  | .keyword (.conditional .switchWord) => return .block (.switchOn (← expression))
  | .keyword (.exceptionWord .tryWord) => return .block .attempt
  | .keyword (.exceptionWord .exceptWord) => return .block (← catchHeader)
  | .keyword (.exceptionWord .finallyWord) => return .block .always
  | .keyword (.exceptionWord .raiseWord) => return .line true (← raised)
  | _ => reject (.unexpected t)

end Parse

/-! ## What forms there are -/

def Lexeme.jumps : Lexeme → Bool
  | .keyword (.statement .returnWord) | .keyword (.statement .breakWord) | .keyword (.statement .continueWord)
  | .keyword (.exceptionWord .raiseWord) => true
  | _ => false

def Header.isPlain : Header → Bool
  | .userType _ | .attributes _ => false
  | _ => true

/-- The header takes over what was seen of the scopes. A constructor is declared in a class, and in
no function. -/
def Header.Heeds (v : View) : Header → Prop
  | .function f => f.inClass = v.inClass ∧ f.bound = v.bound
  | .constructing _ => v.inFunction = false ∧ v.inClass = true
  | _ => True

/-- A clause that starts with this lexeme may be of this form, when this was seen of the scopes. -/
def Form.Suits (l : Lexeme) (v : View) : Form → Prop
  | .line jumps _ => jumps = l.jumps
  | .block header => l.jumps = false ∧ header.isPlain = true ∧ header.Heeds v
  | .userType _ => l.jumps = false

namespace Parse

variable {l : Lexeme} {v : View}

theorem targetForm_suits (t : Token) (r : Reader) (hl : l.jumps = false) :
    Ensures (targetForm t) r fun f _ => f.Suits l v := by
  refine .behind fun accessors _ => .behind fun assigns _ => ?_
  cases assigns with
  | true => exact .behind fun op _ => .behind fun value _ => .pure hl.symm
  | false =>
    refine .behind fun atEnd _ => ?_
    split
    · exact .pure hl.symm
    · exact .behind fun e _ => .throw

theorem declarationForm_suits (t : Token) (r : Reader) (hl : l.jumps = false) :
    Ensures (declarationForm t) r fun f _ => f.Suits l v := .behind fun _ _ => .pure hl.symm

theorem forHeader_suits (r : Reader) :
    Ensures forHeader r fun header _ => header.isPlain = true ∧ header.Heeds v := by
  rw [forHeader_eq]
  refine .behind fun first _ => .behind fun more _ => ?_
  cases more with
  | true => exact .behind fun second _ => .behind fun _ _ => .behind fun _ _ => .pure ⟨rfl, trivial⟩
  | false => exact .behind fun _ _ => .behind fun _ _ => .pure ⟨rfl, trivial⟩

theorem catchHeader_suits (r : Reader) :
    Ensures catchHeader r fun header _ => header.isPlain = true ∧ header.Heeds v := by
  refine .behind fun t _ => .behind fun type _ => .behind fun named _ => ?_
  cases named with
  | true => exact .behind fun name _ => .pure ⟨rfl, trivial⟩
  | false => exact .pure ⟨rfl, trivial⟩

/-- A function header binds what the view says is bound. -/
theorem functionHeader_heeds (word : FunctionWord) (r : Reader) :
    Ensures (functionHeader word v.inClass v.bound) r fun f _ => Header.Heeds v (.function f) := by
  rw [functionHeader_eq]
  have hresult : ∀ name parameters r, Ensures (resultFrom word v.inClass v.bound name parameters) r fun f _ =>
      Header.Heeds v (.function f) := by
    refine fun name parameters r => .behind fun arrow _ => ?_
    cases arrow with
    | true => exact .behind fun arrow _ => .guard fun _ => .behind fun _ _ => .behind fun _ _ => .pure ⟨rfl, rfl⟩
    | false => exact .pure ⟨rfl, rfl⟩
  refine .behind fun name _ => .behind fun opens _ => ?_
  cases opens with
  | true => exact .behind fun parameters _ => hresult _ _ _
  | false => exact hresult _ _ _

theorem statementForm_suits (w : StatementWord) (t : Token) (v : View) (r : Reader) :
    Ensures (statementForm w t v) r fun f _ => f.Suits (.keyword (.statement w)) v := by
  unfold statementForm
  cases w with
  | returnWord =>
    refine .guard fun _ => .behind fun atEnd _ => ?_
    cases atEnd with
    | true => exact .pure rfl
    | false => exact .behind fun value _ => .pure rfl
  | breakWord | continueWord => exact .guard fun _ => .pure rfl
  | passWord => exact .pure rfl
  | printWord =>
    refine .behind fun _ _ => .behind fun atEnd _ => ?_
    cases atEnd with
    | true => exact .pure rfl
    | false => exact .behind fun values _ => .pure rfl
  | assertWord => exact .behind fun arguments _ => .guard fun _ => .pure rfl
  | forWord => exact .seq (forHeader_suits r) fun header _ h => .pure ⟨rfl, h⟩
  | whileWord => exact .behind fun condition _ => .pure ⟨rfl, rfl, trivial⟩
  | unittestWord => exact .pure ⟨rfl, rfl, trivial⟩
  | passthroughWord => exact .throw

/-- Every form suits the word it starts with. -/
theorem form_suits (l : Lexeme) (t : Token) (v : View) (r : Reader) :
    Ensures (form l t v) r fun f _ => f.Suits l v := by
  unfold form
  split
  · exact .behind fun _ _ => .pure rfl
  · exact .behind fun _ _ => .pure rfl
  · exact statementForm_suits _ t v r
  · refine .behind fun called _ => ?_
    split
    · next hcalled =>
      rw [Bool.and_eq_true, Bool.not_eq_true'] at hcalled
      exact .guard fun hclass => .behind fun parameters _ => .pure ⟨rfl, rfl, hcalled.2, by simpa using hclass⟩
    · exact targetForm_suits t _ rfl
  · exact targetForm_suits t r rfl
  · refine .behind fun assigns _ => ?_
    cases assigns with
    | true => exact .behind fun value _ => .pure rfl
    | false => exact targetForm_suits t _ rfl
  · refine .behind fun dot _ => .behind fun opens _ => ?_
    split
    · exact targetForm_suits t _ rfl
    · exact declarationForm_suits t _ rfl
  · exact declarationForm_suits t r rfl
  · exact .guard fun _ => declarationForm_suits t r rfl
  · exact .guard fun _ => .seq (functionHeader_heeds _ r) fun header _ h => .pure ⟨rfl, rfl, h⟩
  · exact targetForm_suits t r rfl
  · exact .behind fun header _ => .pure rfl
  · exact .behind fun condition _ => .pure ⟨rfl, rfl, trivial⟩
  · refine .behind fun isIf _ => ?_
    cases isIf with
    | true => exact .behind fun condition _ => .pure ⟨rfl, rfl, trivial⟩
    | false => exact .pure ⟨rfl, rfl, trivial⟩
  · exact .behind fun value _ => .pure ⟨rfl, rfl, trivial⟩
  · exact .pure ⟨rfl, rfl, trivial⟩
  · exact .seq (catchHeader_suits r) fun header _ h => .pure ⟨rfl, h⟩
  · exact .pure ⟨rfl, rfl, trivial⟩
  · exact .behind fun thrown _ => .pure rfl
  · exact .throw

end Parse

/-! ## Ending a form -/

/-- A jump sets its mark before the end of the line is read, and a class binds its type parameters
behind it. -/
def Form.complete : Form → Translate Clause
  | .line jumps statement => do
    if jumps then Translate.setTerminated true
    finish statement
  | .block header => openBlock header
  | .userType header => do
    let clause ← openBlock (.userType header)
    openGenerics header.parameters
    return clause

variable {t : Token} {l : Lexeme}

namespace Translate

def body (l : Lexeme) (t : Token) : Translate Clause := do
  let f ← form l t (← get).view
  f.complete

def takesHandler (previous : Option Tag) : Bool := previous = some .tryBlock || previous = some .exceptBlock

/-- Why a clause cannot follow the block that was closed last, if it has to continue one. -/
def complaint? (l : Lexeme) (previous : Option Tag) : Option Text :=
  match l with
  | .keyword (.conditional .elseWord) =>
    if previous = some .ifBlock then none else some "'else' without a preceding 'if' block"
  | .keyword (.exceptionWord .exceptWord) =>
    if takesHandler previous then none else some "'except' without a preceding 'try' block"
  | .keyword (.exceptionWord .finallyWord) =>
    if takesHandler previous then none else some "'finally' without a preceding 'try' block"
  | _ => none

theorem complaint?_of_none (h : complaint? l none = none) (previous : Option Tag) : complaint? l previous = none := by
  unfold complaint? at h ⊢
  split at h
  · cases h
  · cases h
  · cases h
  · rfl

def continuation (l : Lexeme) (t : Token) : Translate Clause := do
  match complaint? l (← get).scopes.previous with
  | some reason => rejectContext t reason
  | none =>
    forgetPrevious
    body l t

/-! ## Clauses by their forms -/

section

variable {α β : Type}

@[simp] theorem lift_bind (p : Parse α) (f : α → Parse β) :
    (liftM (p >>= f) : Translate β) = liftM p >>= fun a => (liftM (f a) : Translate β) := by
  funext s
  change parse (p >>= f) s = EStateM.bind (parse p) (fun a => parse (f a)) s
  have hbind : ∀ r, (p >>= f) r = EStateM.bind p f r := fun _ => rfl
  rw [EStateM.bind, parse, parse, hbind, EStateM.bind]
  cases p s.reader <;> rfl

@[simp] theorem lift_pure (a : α) : (liftM (pure a : Parse α) : Translate α) = pure a := rfl

@[simp] theorem lift_map (g : α → β) (p : Parse α) :
    (liftM (g <$> p) : Translate β) = g <$> (liftM p : Translate α) := by
  rw [← bind_pure_comp, ← bind_pure_comp, lift_bind]
  rfl

@[simp] theorem lift_reject (e : ParseError) : (liftM (Parse.reject e : Parse α) : Translate α) = reject e := rfl

@[simp] theorem lift_ite (c : Prop) [Decidable c] (p q : Parse α) :
    (liftM (if c then p else q) : Translate α) = if c then (liftM p : Translate α) else liftM q := by
  split <;> rfl

@[simp] theorem ite_bind (c : Prop) [Decidable c] (m n : Translate α) (f : α → Translate β) :
    (if c then m else n) >>= f = if c then m >>= f else n >>= f := by
  split <;> rfl

@[simp] theorem reject_bind (e : ParseError) (f : α → Translate β) : reject e >>= f = reject e := rfl

@[simp] theorem inside_function (f : Bool → Translate β) (s : Session) :
    (inside [.function] >>= f) s = f s.view.inFunction s := rfl

@[simp] theorem inside_loop (f : Bool → Translate β) (s : Session) :
    (inside [.forLoop, .whileLoop] >>= f) s = f s.view.inLoop s := rfl

@[simp] theorem inside_class (f : Bool → Translate β) (s : Session) :
    (inside [.userType, .template] >>= f) s = f s.view.inClass s := rfl

@[simp] theorem inside_template (f : Bool → Translate β) (s : Session) :
    (inside [.template] >>= f) s = f s.view.inTemplate s := rfl

theorem lift_atText (text : Text) (f : Bool → Translate α) (s : Session) :
    ((liftM (atText text) : Translate Bool) >>= f) s =
      f ((s.reader.stream.rest.head?.map (·.is text)).getD false) s := rfl

theorem lift_atText_cons {s : Session} {t : Token} {rest : List Token} {text : Text} {f : Bool → Translate α}
    (hrest : s.stream.rest = t :: rest) : ((liftM (atText text) : Translate Bool) >>= f) s = f (t.is text) s := by
  rw [lift_atText, ← Session.stream, hrest]
  rfl

end

theorem body_eq (l : Lexeme) (t : Token) (s : Session) :
    body l t s = ((liftM (form l t s.view) : Translate Form) >>= Form.complete) s := rfl

theorem identifierStatement_eq (t : Token) :
    identifierStatement t = (liftM (targetForm t) : Translate Form) >>= Form.complete := by
  simp [identifierStatement, targetForm, Form.complete]

theorem declaration_eq (t : Token) :
    declaration t = (liftM (declarationForm t) : Translate Form) >>= Form.complete := by
  simp [declaration, declarationForm, Form.complete]

/-- A statement is its form, completed. -/
theorem statement_eq {w : StatementWord} (t : Token) (hw : w ≠ .passthroughWord) :
    statement w t = body (.keyword (.statement w)) t := by
  funext s
  cases w with
  | passthroughWord => exact absurd rfl hw
  | _ => simp [body_eq, statement, form, statementForm, Form.complete, rejectContext]

theorem constructorClause_eq (w : ConstructorWord) (t : Token) :
    constructorClause w t = body (.keyword (.constructorWord w)) t := by
  funext s
  cases w with
  | thisWord =>
    simp only [body_eq, constructorClause, form, lift_bind, bind_assoc, lift_atText, inside_function]
    generalize ((s.reader.stream.rest.head?.map fun t => t.is "(").getD false && !s.view.inFunction) = called
    cases called with
    | false => exact congrFun (identifierStatement_eq t) s
    | true => simp [Form.complete, rejectContext]
  | superWord => exact congrFun (identifierStatement_eq t) s
  | newWord => rfl

theorem function_eq (w : FunctionWord) (t : Token) : function w t = body (.keyword (.functionWord w)) t := by
  funext s
  simp only [body_eq, function, form, inside_class, lift_ite, lift_bind, lift_reject, lift_pure, ite_bind,
    reject_bind, rejectContext, bind_assoc, pure_bind, Form.complete]
  split <;> rfl

/-- What no other clause can continue or be continued by, but for code that is passed through. -/
theorem unrelated_eq (hpass : t.lexeme ≠ .keyword (.statement .passthroughWord))
    (hconditional : ∀ w, t.lexeme ≠ .keyword (.conditional w))
    (hexception : ∀ w, t.lexeme ≠ .keyword (.exceptionWord w)) : unrelated t = body t.lexeme t := by
  rw [unrelated]
  generalize t.lexeme = l at *
  cases l with
  | plain => exact identifierStatement_eq t
  | shape shape =>
    cases shape with
    | constant =>
      funext s
      simp [body_eq, form, Form.complete, identifierStatement_eq]
    | classIdentifier =>
      funext s
      simp [body_eq, form, identifierStatement_eq, declaration_eq]
    | templateType =>
      funext s
      simp [body_eq, form, rejectContext, declaration_eq]
    | _ => rfl
  | keyword k =>
    cases k with
    | libraryWord w =>
      funext s
      cases w <;> simp [body_eq, library, form, Form.complete]
    | statement w => exact statement_eq t fun hw => hpass (by rw [hw])
    | constructorWord w => exact constructorClause_eq w t
    | typeWord => exact declaration_eq t
    | functionWord w => exact function_eq w t
    | userType w =>
      funext s
      simp [body_eq, userType, form, Form.complete]
    | conditional w => exact absurd rfl (hconditional w)
    | exceptionWord w => exact absurd rfl (hexception w)
    | _ => rfl

theorem body_of_view (v : View) (h : ∀ v', form l t v' = form l t v) :
    body l t = (liftM (form l t v) : Translate Form) >>= Form.complete := by
  funext s
  rw [body_eq, h]

theorem continuation_eq (l : Lexeme) (t : Token) (s : Session) : continuation l t s =
    (match complaint? l s.scopes.previous with
      | some reason => rejectContext t reason
      | none => do
        forgetPrevious
        body l t : Translate Clause) s := rfl

theorem exception_eq (w : ExceptionWord) (t : Token) :
    exception w t = continuation (.keyword (.exceptionWord w)) t := by
  have hbody := body_of_view (l := .keyword (.exceptionWord w)) (t := t) ⟨false, false, false, false, []⟩
    fun _ => by cases w <;> rfl
  have htry : ∀ (f : Bool → Translate Clause) (s : Session),
      (afterTry >>= f) s = f (takesHandler s.scopes.previous) s := fun _ _ => rfl
  funext s
  simp only [exception, continuation_eq, complaint?, hbody, form]
  cases w <;> simp only [htry] <;> generalize takesHandler s.scopes.previous = b <;> cases b <;>
    simp [rejectContext, Form.complete]

theorem conditional_eq {w : Conditional} (t : Token) (hcase : w ≠ .caseWord) (hdefault : w ≠ .defaultWord) :
    conditional w t = continuation (.keyword (.conditional w)) t := by
  have hbody := body_of_view (l := .keyword (.conditional w)) (t := t) ⟨false, false, false, false, []⟩
    fun _ => by cases w <;> rfl
  have hprevious : ∀ (f : Session → Translate Clause) (s : Session), (get >>= f) s = f s s := fun _ _ => rfl
  funext s
  cases w with
  | caseWord => exact absurd rfl hcase
  | defaultWord => exact absurd rfl hdefault
  | elseWord =>
    simp only [conditional, continuation_eq, complaint?, hbody, form, hprevious]
    by_cases h : s.scopes.previous = some .ifBlock <;> simp [h, rejectContext, Form.complete]
  | _ => simp [conditional, continuation_eq, complaint?, hbody, form, Form.complete]

/-! ## Clauses by their first tokens -/

/-- The clause that starts with a token which is not raw. Those after an attribute are read by
`more`. -/
def clauseFrom (more : Token → Translate Clause) (first : Bool) (t : Token) : Translate Clause := do
  match t.lexeme with
  | .keyword (.marker m) => marker m first t
  | .shape .punctuation => if t.isCommentSign then comment t else reject (.unexpected t)
  | .keyword .attributeWord =>
    forgetPrevious
    setTerminated false
    if ← atText ":" then openBlock (.attributes t.text)
    else
      let after ← next "declaration"
      if after.raw || after.category.isLineMarker then reject (.unexpected after)
      return .attributed t.text (← more after)
  | .keyword (.statement .passthroughWord) =>
    forgetPrevious
    setTerminated false
    passthrough t
  | .keyword (.conditional .caseWord) | .keyword (.conditional .defaultWord) =>
    setTerminated false
    labels t
  | l =>
    setTerminated false
    continuation l t

theorem clauseFrom_unrelated (hl : t.lexeme = l) (hpass : l ≠ .keyword (.statement .passthroughWord))
    (hconditional : ∀ w, l ≠ .keyword (.conditional w)) (hexception : ∀ w, l ≠ .keyword (.exceptionWord w)) :
    (do forgetPrevious; setTerminated false; unrelated t : Translate Clause) =
      (do setTerminated false; continuation l t) := by
  have hnone : ∀ previous, complaint? l previous = none := by
    intro previous
    unfold complaint?
    split
    · exact absurd rfl (hconditional _)
    · exact absurd rfl (hexception _)
    · exact absurd rfl (hexception _)
    · rfl
  subst hl
  rw [unrelated_eq hpass hconditional hexception]
  funext s
  have hrun : ∀ p : Translate Clause, (setTerminated false >>= fun _ => p) s = p { s with terminated := false } :=
    fun _ => rfl
  rw [hrun, continuation_eq, hnone]
  rfl

/-- A clause is recorded, and then read by its first token. -/
theorem clauseIn_succ (n : Nat) (t : Token) : clauseIn (n + 1) t = (do
    let first ← recordDispatch t
    if t.raw then reject (.unexpected t)
    clauseFrom (clauseIn n) first t) := by
  have hstep : ∀ {p q : Translate Clause}, p = q →
      (do setTerminated false; p) = (do setTerminated false; q) := fun h => h ▸ rfl
  rw [clauseIn]
  unfold clauseFrom
  congr
  funext first
  cases t.raw with
  | true => rfl
  | false =>
    -- What has no clause of its own is left to `unrelated`.
    cases hl : t.lexeme with
    | plain => exact clauseFrom_unrelated hl (by decide) (by simp) (by simp)
    | shape s =>
      cases s with
      | punctuation => rfl
      | _ => exact clauseFrom_unrelated hl (by decide) (by simp) (by simp)
    | keyword k =>
      cases k with
      | marker m => rfl
      | attributeWord => rfl
      | conditional w =>
        cases w with
        | caseWord => rfl
        | defaultWord => rfl
        | _ => exact hstep (conditional_eq t (by decide) (by decide))
      | exceptionWord w => exact hstep (exception_eq w t)
      | statement w =>
        cases w with
        | passthroughWord =>
          rw [unrelated, hl]
          rfl
        | _ => exact clauseFrom_unrelated hl (by decide) (by simp) (by simp)
      | _ => exact clauseFrom_unrelated hl (by simp) (by simp) (by simp)

end Translate

end Offside
