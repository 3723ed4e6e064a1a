/-
How clauses are written.

`Simple.words`, `Header.words` and `Label.words` continue `Expr.words` to statements. Only a
function without parameters can be written in two ways.
-/
import Offside.Proofs.Parse.Spelling
import Offside.Syntax.Clause

set_option autoImplicit false

namespace Offside

open List LineComment Offside.Expr

namespace Fragment

variable (unit : Text)

@[simp] theorem render_nil : render unit [] = [] := rfl

@[simp] theorem render_cons (p : Piece) (f : Fragment) :
    render unit (p :: f) = p.render unit ++ render unit f := flatMap_cons

/-- Fragments are rendered part by part. -/
@[simp] theorem render_append (f g : Fragment) :
    render unit (f ++ g) = render unit f ++ render unit g := flatMap_append

end Fragment

/-! ## Declarations -/

namespace Binding

def words (b : Binding) : List Text :=
  match b.value with
  | none => [b.name]
  | some value => b.name :: "=" :: value.words

def WellFormed (b : Binding) : Prop :=
  Category.ofText b.name = .identifier ∧ OptionalWellFormed b.value

end Binding

namespace ParameterGroup

/-- The words of the parameters of a group. The first one has the attributes and the type of all. -/
def items (g : ParameterGroup) : List (List Text) :=
  match g.bindings with
  | [] => []
  | b :: bs => (g.storage ++ (g.type.words ++ b.words)) :: bs.map Binding.words

structure WellFormed (g : ParameterGroup) : Prop where
  storage : ∀ w ∈ g.storage, Category.ofText w = .attributeWord
  type : g.type.WellFormed
  bindings : ∀ b ∈ g.bindings, b.WellFormed
  nonempty : g.bindings ≠ []

def listWords (groups : List ParameterGroup) : List Text :=
  parenWords (commaWords (groups.flatMap items))

end ParameterGroup

def nameWords (names : List Text) : List Text := commaWords (names.map fun name => [name])

namespace FunctionHeader

def resultWords (f : FunctionHeader) : List Text :=
  match f.result with
  | none => []
  | some type => "->" :: type.words

/-- The header after its first word. If it is `bare` then the parentheses around no parameters are
left out. -/
def words (bare : Bool) (f : FunctionHeader) : List Text :=
  f.name :: ((if bare && f.parameters.isEmpty then [] else ParameterGroup.listWords f.parameters) ++
    f.resultWords)

structure WellFormed (f : FunctionHeader) : Prop where
  name : Category.ofText f.name = .identifier
  parameters : ∀ g ∈ f.parameters, g.WellFormed
  result : ∀ type ∈ f.result, type.WellFormed

end FunctionHeader

namespace UserTypeHeader

def parameterWords (u : UserTypeHeader) : List Text :=
  match u.parameters with
  | [] => []
  | names => parenWords (nameWords names)

def parentWords (u : UserTypeHeader) : List Text :=
  match u.parents with
  | [] => []
  | parents => "inherits" :: commaWords (parents.map TypeExpr.words)

def words (u : UserTypeHeader) : List Text := u.name :: (u.parameterWords ++ u.parentWords)

structure WellFormed (u : UserTypeHeader) : Prop where
  name : Category.ofText u.name = .classIdentifier
  parameters : ∀ name ∈ u.parameters, Category.ofText name = .templateType
  parents : ∀ type ∈ u.parents, type.WellFormed

end UserTypeHeader

/-! ## Statements -/

namespace Target

def operand (t : Target) : Operand := .atom t.head t.accessors

end Target

namespace ModulePath

def words : ModulePath → List Text
  | [] => []
  | [segment] => [segment]
  | segment :: path => segment :: "." :: words path

end ModulePath

namespace Simple

def words : Simple → List Text
  | pass => ["pass"]
  | result value => "return" :: optionalWords value
  | jump word => [word]
  | print arguments => "print" :: commaWords (wordLists arguments)
  | assertion arguments => "assert" :: commaWords (wordLists arguments)
  | throwNew name arguments =>
    "raise" :: name :: parenWords (commaWords (wordLists arguments))
  | throwValue value => "raise" :: value.words
  | modules paths => "import" :: commaWords (paths.map ModulePath.words)
  | symbols path names => "from" :: (path.words ++ ("import" : Text) :: nameWords names)
  | constant name value => name :: "=" :: value.words
  | declaration type bindings => type.words ++ commaWords (bindings.map Binding.words)
  | assignment target operator value => target.operand.words ++ operator :: value.words
  | call target => target.operand.words

def WellFormed : Simple → Prop
  | pass => True
  | result value => OptionalWellFormed value
  | jump word => word = "break" ∨ word = "continue"
  | print arguments => AllWellFormed arguments
  | assertion arguments => AllWellFormed arguments
  | throwNew name arguments =>
    Category.ofText name = .classIdentifier ∧ AllWellFormed arguments
  | throwValue value => value.WellFormed
  | modules paths => ∀ path ∈ paths, ∀ segment ∈ path, Text.isWord segment = true
  | symbols path names =>
    (∀ segment ∈ path, Text.isWord segment = true) ∧ ∀ name ∈ names, Text.isWord name = true
  | constant name value => Category.ofText name = .constant ∧ value.WellFormed
  | declaration type bindings =>
    type.WellFormed ∧ bindings ≠ [] ∧ ∀ b ∈ bindings, b.WellFormed
  | assignment target operator value =>
    target.operand.WellFormed ∧ Category.ofText operator = .assignment ∧ value.WellFormed
  | call target => target.operand.WellFormed

end Simple

namespace Header

def words (bare : Bool) : Header → List Text
  | ifThen condition => "if" :: condition.words
  | elseIf condition => "else" :: "if" :: condition.words
  | otherwise => ["else"]
  | whileLoop condition => "while" :: condition.words
  | forEach names sequence => "for" :: (nameWords names ++ ("in" : Text) :: sequence.words)
  | switchOn subject => "switch" :: subject.words
  | attempt => ["try"]
  | catching type name => "except" :: (type.words ++ name.toList)
  | always => ["finally"]
  | unittest => ["unittest"]
  | constructing parameters => "this" :: ParameterGroup.listWords parameters
  | function header => header.word.text :: header.words bare
  | userType header => header.word.text :: header.words
  | attributes word => [word]

def WellFormed : Header → Prop
  | ifThen condition => condition.WellFormed
  | elseIf condition => condition.WellFormed
  | otherwise => True
  | whileLoop condition => condition.WellFormed
  | forEach names sequence =>
    (∀ name ∈ names, Category.ofText name = .identifier) ∧ sequence.WellFormed
  | switchOn subject => subject.WellFormed
  | attempt => True
  | catching type name =>
    type.WellFormed ∧ ∀ word, name = some word → Category.ofText word = .identifier
  | always => True
  | unittest => True
  | constructing parameters => ∀ g ∈ parameters, g.WellFormed
  | function header => header.WellFormed
  | userType header => header.WellFormed
  | attributes word => Category.ofText word = .attributeWord

end Header

namespace Label

def words : Label → List Text
  | values vs => "case" :: commaWords (wordLists vs)
  | fallback => ["default"]

def WellFormed : Label → Prop
  | values vs => AllWellFormed vs
  | fallback => True

end Label

/-! ## Ends of lines -/

def Token.Codes (ts : List Token) (words : List Text) : Prop :=
  ts.map Token.text = words ∧ ∀ t ∈ ts, t.IsCode

theorem Token.codes_concat {ts : List Token} {t : Token} (hts : ∀ u ∈ ts, u.IsCode) (ht : t.IsCode) :
    Codes (ts ++ [t]) ((ts ++ [t]).map Token.text) :=
  ⟨rfl, forall_mem_append.mpr ⟨hts, forall_mem_singleton.mpr ht⟩⟩

/-- The sign of a comment, and its text if it has any. -/
inductive LineComment.Written : LineComment → List Token → Prop
  | bare {sign : Token} (hsign : sign.isCommentSign) :
    Written { documents := sign.text == "#.", text := [] } [sign]
  | text {sign t : Token} (hsign : sign.isCommentSign) (ht : t.raw) :
    Written { documents := sign.text == "#.", text := t.text } [sign, t]

def LineComment.WrittenAfter : Option LineComment → List Token → Prop
  | none, ts => ts = []
  | some c, ts => c.Written ts

theorem LineComment.WrittenAfter.mem {comment : Option LineComment} {ts : List Token}
    (h : WrittenAfter comment ts) : ∀ t ∈ ts, t.isCommentSign ∨ t.raw := by
  cases comment with
  | none =>
    rw [WrittenAfter] at h
    simp [h]
  | some c =>
    cases h with
    | bare hsign => simp [hsign]
    | text hsign ht => simp [hsign, ht]

def Closing.Closes (tag : Tag) (t : Token) : Closing → Prop
  | .block level => tag ≠ .caseBody ∧ level = t.level
  | .caseBody _ level => tag = .caseBody ∧ level = t.level

inductive Ending.Written : List Tag → Ending → List Token → List Tag → Prop
  | input (tags : List Tag) : Written tags .input [] tags
  | line (tags : List Tag) {t : Token} (ht : t.is Marker.newline.text) :
    Written tags (.line t.level) [t] tags
  | closing {tags : List Tag} {tag : Tag} {t : Token} {c : Closing}
      (ht : t.is Marker.dedent.text) (hc : c.Closes tag t) :
    Written (tag :: tags) (.closing c) [t] tags

/-- The lines of a raw block and the dedent that closes it. -/
inductive RawWritten : List Text → List Token → Prop
  | close {t : Token} (ht : t.is Marker.dedent.text) : RawWritten [] [t]
  | line {t : Token} {lines : List Text} {ts : List Token} (ht : t.raw)
      (h : RawWritten lines ts) : RawWritten (t.text :: lines) (t :: ts)
  | newline {t : Token} {lines : List Text} {ts : List Token}
      (ht : t.is Marker.newline.text) (h : RawWritten lines ts) : RawWritten lines (t :: ts)

theorem RawWritten.forall_line {lines : List Text} {ts : List Token} (h : RawWritten lines ts) {P : Text → Prop}
    (hts : ∀ t ∈ ts, t.raw → P t.text) : ∀ line ∈ lines, P line := by
  induction h with
  | close => exact fun _ hline => nomatch hline
  | line ht h ih =>
    obtain ⟨hfirst, hrest⟩ := forall_mem_cons.mp hts
    exact forall_mem_cons.mpr ⟨hfirst ht, ih hrest⟩
  | newline ht h ih => exact ih (forall_mem_cons.mp hts).2

/-- A raw block has raw tokens and markers only. -/
theorem RawWritten.mem {lines : List Text} {ts : List Token} (h : RawWritten lines ts) :
    ∀ t ∈ ts, t.raw ∨ t.isMarker := by
  induction h with
  | close ht => simpa using .inr (Token.isMarker_of_mark ht)
  | line ht _ ih => exact forall_mem_cons.mpr ⟨.inl ht, ih⟩
  | newline ht _ ih => exact forall_mem_cons.mpr ⟨.inr (Token.isMarker_of_mark ht), ih⟩

/-- A case label up to the marker `m` that ends its line. -/
structure LabelLine.Written (l : LabelLine) (ts cs : List Token) (m : Token) : Prop where
  codes : Token.Codes ts (l.label.words ++ [(":" : Text)])
  wellFormed : l.label.WellFormed
  comment : WrittenAfter l.comment cs
  level : l.level = m.level

/-- Case labels, of which the last one has a body. -/
inductive LabelLine.AllWritten : List LabelLine → List Token → Prop
  | last {l : LabelLine} {ts cs : List Token} {m : Token} (h : l.Written ts cs m)
      (hm : m.is Marker.indent.text) : AllWritten [l] (ts ++ (cs ++ [m]))
  | more {l : LabelLine} {ls : List LabelLine} {ts cs us : List Token} {m : Token}
      (h : l.Written ts cs m) (hm : m.is Marker.newline.text) (hls : AllWritten ls us) :
    AllWritten (l :: ls) (ts ++ (cs ++ m :: us))

/-! ## Clauses -/

def Clause.endsInput : Clause → Bool
  | .simple _ _ .input => true
  | .attributed _ c => c.endsInput
  | _ => false

def Clause.header? : Clause → Option Header
  | .block header _ _ => some header
  | .attributed _ c => c.header?
  | _ => none

def Clause.constructs (c : Clause) : Bool :=
  match c.header? with
  | some (.constructing _) => true
  | _ => false

/-- The tokens write the clause while the first scopes are open, and leave the second ones open. -/
inductive Clause.Written : List Tag → Clause → List Token → List Tag → Prop
  | start (tags : List Tag) {t : Token} (ht : t.is Marker.begin.text) :
    Written tags .start [t] tags
  | newline (tags : List Tag) {t : Token} (ht : t.is Marker.newline.text) :
    Written tags (.newline t.level) [t] tags
  | dedent {tags : List Tag} {tag : Tag} {t : Token} {c : Closing}
      (ht : t.is Marker.dedent.text) (hc : c.Closes tag t) :
    Written (tag :: tags) (.dedent c) [t] tags
  | lineComment (tags : List Tag) {c : LineComment} {ts : List Token} (h : c.Written ts) :
    Written tags (.lineComment c) ts tags
  | blockComment (tags : List Tag) {sign t : Token} {lines : List Text} {ts : List Token}
      (hsign : sign.isCommentSign) (ht : t.is Marker.indent.text)
      (h : RawWritten lines ts) :
    Written tags (.blockComment (sign.text == "#.") sign.level lines) (sign :: t :: ts) tags
  | passthrough (tags : List Tag) {openers : List Token} {opener t : Token} {lines : List Text}
      {ts : List Token} (hopener : opener.IsCode) (hopeners : ∀ u ∈ openers, u.IsCode)
      (ht : t.is Marker.indent.text) (h : RawWritten lines ts)
      (hwords : (openers ++ [opener]).map Token.text <+: (["passthrough", ":"] : List Text)) :
    Written tags (.passthrough opener.level lines) (openers ++ opener :: t :: ts) tags
  | simple {tags tags' : List Tag} {s : Simple} {comment : Option LineComment} {e : Ending}
      {ts cs es : List Token} (hcodes : Token.Codes ts s.words) (hs : s.WellFormed)
      (hcomment : WrittenAfter comment cs) (he : e.Written tags es tags') :
    Written tags (.simple s comment e) (ts ++ (cs ++ es)) tags'
  | block (tags : List Tag) {header : Header} {comment : Option LineComment} {bare : Bool}
      {ts cs : List Token} {t : Token} (hcodes : Token.Codes ts (header.words bare ++ [(":" : Text)]))
      (hheader : header.WellFormed)
      (hcomment : WrittenAfter comment cs) (ht : t.is Marker.indent.text) :
    Written tags (.block header comment t.level) (ts ++ (cs ++ [t])) (header.tag :: tags)
  | labels (tags : List Tag) {lines : List LabelLine} {ts : List Token}
      (h : LabelLine.AllWritten lines ts) : Written tags (.labels lines) ts (.caseBody :: tags)
  | attributed {tags tags' : List Tag} {t : Token} {c : Clause} {ts : List Token}
      (ht : t.IsCode) (hcategory : Category.ofText t.text = .attributeWord)
      (hfirst : ∀ u ∈ ts.head?, u.isMarker = false) (h : Written tags c ts tags') :
    Written tags (.attributed t.text c) (t :: ts) tags'

/-- The tokens write the clauses, one after the other. Only the last one can end with the input. -/
inductive Clause.AllWritten : List Tag → List Clause → List Token → List Tag → Prop
  | nil (tags : List Tag) : AllWritten tags [] [] tags
  | cons {tags tags' tags'' : List Tag} {c : Clause} {cs : List Clause} {ts us : List Token}
      (hc : c.Written tags ts tags') (hinput : c.endsInput → us = [])
      (hcs : AllWritten tags' cs us tags'') : AllWritten tags (c :: cs) (ts ++ us) tags''

/-! ## Clauses at another level -/

namespace Closing

def raise (n : Int) : Closing → Closing
  | block level => block (level + n)
  | caseBody needsBreak level => caseBody needsBreak (level + n)

end Closing

namespace Ending

def raise (n : Int) : Ending → Ending
  | input => input
  | line level => line (level + n)
  | closing c => closing (c.raise n)

end Ending

namespace LabelLine

def raise (n : Int) (l : LabelLine) : LabelLine := { l with level := l.level + n }

end LabelLine

namespace Clause

def raise (n : Int) : Clause → Clause
  | start => start
  | newline level => newline (level + n)
  | dedent c => dedent (c.raise n)
  | lineComment comment => lineComment comment
  | blockComment documents level lines => blockComment documents (level + n) lines
  | passthrough level lines => passthrough (level + n) lines
  | simple statement comment ending => simple statement comment (ending.raise n)
  | block header comment level => block header comment (level + n)
  | labels lines => labels (lines.map (LabelLine.raise n))
  | attributed word clause => attributed word (clause.raise n)

end Clause

@[simp] theorem Closing.raise_zero (c : Closing) : c.raise 0 = c := by cases c <;> simp [Closing.raise]

@[simp] theorem Ending.raise_zero (e : Ending) : e.raise 0 = e := by cases e <;> simp [Ending.raise]

@[simp] theorem LabelLine.raise_zero : LabelLine.raise 0 = id := by
  funext l
  simp [LabelLine.raise]

/-- Raising by nothing changes nothing. -/
@[simp] theorem Clause.raise_zero (c : Clause) : c.raise 0 = c := by
  induction c with
  | attributed word c ih => simp [Clause.raise, ih]
  | _ => simp [Clause.raise]

end Offside
