/-
Tokens of a YAML text.

Indentation and implicit keys become tokens here: a block collection starts where its first entry or
key stands, and it ends before the first token in a smaller column. That something was a key shows
only at the colon after it, so the tokens that say so are put in front of it then.

Reading stops at the first error. The tokens before it are kept, because a document may be complete
before the error is reached.
-/
import Offside.Version
import Offside.Yaml.Scalar
import Offside.Yaml.Tag

set_option autoImplicit false

namespace Offside

namespace Yaml

inductive Token
  /-- A directive that gives the version of YAML. -/
  | version (major minor : Nat)
  /-- A directive that says what a handle is short for. -/
  | handle (handle start : Text)
  | documentStart
  | documentEnd
  | blockSequence
  | blockMapping
  | blockEnd
  | flowSequence
  | flowSequenceEnd
  | flowMapping
  | flowMappingEnd
  | comma
  | entry
  | key
  | value
  | reference (name : Text)
  | anchor (name : Text)
  | tag (name : TagName)
  | scalar (text : Text) (plain : Bool)
  deriving DecidableEq, Repr

/-- A token that will have been a key if a colon follows it on the same line. -/
structure PossibleKey where
  /-- In a block mapping every token in the column of its keys has to be one. -/
  required : Bool
  /-- The number of tokens before it. -/
  position : Nat
  place : Mark

/-- The state of reading tokens. -/
structure Lexer where
  rest : Cursor
  tokens : List Token := []
  /-- The column of the innermost block collection, `-1` outside of all. -/
  indent : Int := -1
  /-- The columns of the collections around it. -/
  outer : List Int := []
  /-- The possible key at this level of flow collections. -/
  possible : Option PossibleKey := none
  /-- The possible keys of the levels around it. -/
  levels : List (Option PossibleKey) := []
  /-- May a key start here? -/
  keyAllowed : Bool := true

namespace Lexer

def inFlow (s : Lexer) : Bool := !s.levels.isEmpty

def emit (s : Lexer) (t : Token) : Lexer := { s with tokens := s.tokens ++ [t] }

/-! ## Gaps -/

/-- Where reading stands between two tokens. -/
inductive Place
  | space
  | comment
  /-- Between two comments that belong together. -/
  | betweenComments

/-- The longest white space before a comment that is looked through, in characters. -/
def maxGap : Nat := 511

/-- Does another comment follow the line end `m` at which a comment ends? Blanks and newlines may
stand between them. -/
def commentFollows (m : Mark) (rest : Cursor) : Bool :=
  match (m :: rest).dropWhile fun m => isBlank m.char || m.char == '\n' with
  | next :: _ => next.char == '#' && next.index ≤ m.index + maxGap
  | [] => false

/-- Skips blanks, comments and line ends. After a line end outside of flow collections a key may
start. Tabs are no indentation, so where a key may start they are only skipped between comments. -/
def skipGap (inFlow : Bool) (place : Place) (keyAllowed : Bool) : Cursor → Bool × Cursor
  | [] => (keyAllowed, [])
  | m :: rest =>
    match place with
    | .comment =>
      if !isBreak m.char then skipGap inFlow .comment keyAllowed rest
      else if commentFollows m rest then skipGap inFlow .betweenComments keyAllowed rest
      else skipGap inFlow .space (keyAllowed || !inFlow) rest
    | .betweenComments =>
      skipGap inFlow (if m.char == '#' then .comment else .betweenComments) keyAllowed rest
    | .space =>
      if isBreak m.char then skipGap inFlow .space (keyAllowed || !inFlow) rest
      else if m.char == ' ' || (m.char == '\t' && (inFlow || !keyAllowed)) ||
          (m.char == byteOrderMark && m.column == 0) then
        skipGap inFlow .space keyAllowed rest
      else if m.char == '#' then skipGap inFlow .comment keyAllowed rest
      else (keyAllowed, m :: rest)

/-- Does a comment that follows on the same line belong to the token read last? It does not after
the mark of an entry, between documents, and where the line has ended already. -/
def takesComment (s : Lexer) : Bool :=
  match s.tokens.getLast? with
  | none | some .entry | some .documentStart | some .documentEnd => false
  | some (.version ..) | some (.handle ..) => false
  | some (.scalar ..) => !s.keyAllowed
  | some _ => true

def skipLineComment (c : Cursor) : Cursor :=
  let blanks := c.takeWhile fun m => isBlank m.char
  let after := c.drop blanks.length
  if blanks.length ≤ maxGap && (after.head?.map Mark.char) = some '#' then
    after.dropWhile fun m => !isBreak m.char
  else c

/-! ## Block collections -/

def closeBlocksFrom (column indent : Int) : List Int → List Token × Int × List Int
  | [] => ([], indent, [])
  | o :: outer =>
    if column < indent then
      let (tokens, rest) := closeBlocksFrom column o outer
      (.blockEnd :: tokens, rest)
    else ([], indent, o :: outer)

def closeBlocks (column : Int) (s : Lexer) : Lexer :=
  if s.inFlow then s
  else
    let (ends, indent, outer) := closeBlocksFrom column s.indent s.outer
    { s with tokens := s.tokens ++ ends, indent, outer }

/-- Starts a block collection in a column, unless one was started there. Its token gets the given
position. -/
def openBlock (column : Nat) (position : Nat) (t : Token) (s : Lexer) : Lexer :=
  if s.inFlow || (column : Int) ≤ s.indent then s
  else { s with
    tokens := s.tokens.insertIdx position t, indent := column, outer := s.indent :: s.outer }

/-! ## Possible keys -/

def dropKey (s : Lexer) : Except Error Lexer :=
  match s.possible with
  | some k => if k.required then .error .missingColon else .ok { s with possible := none }
  | none => .ok s

def noteKey (m : Mark) (s : Lexer) : Except Error Lexer :=
  if s.keyAllowed then do
    let s ← s.dropKey
    let k : PossibleKey :=
      { required := !s.inFlow && s.indent = m.column, position := s.tokens.length, place := m }
    .ok { s with possible := some k }
  else .ok s

def maxKey : Nat := 1024

def keyBefore (m : Mark) (s : Lexer) : Except Error (Option PossibleKey) :=
  match s.possible with
  | none => .ok none
  | some k =>
    if k.place.line = m.line ∧ m.index ≤ k.place.index + maxKey then .ok (some k)
    else if k.required then .error .missingColon
    else .ok none

/-! ## Tokens -/

def closeDocument (t : Token) (rest : Cursor) (s : Lexer) : Except Error Lexer := do
  let s ← (s.closeBlocks (-1)).dropKey
  .ok { s.emit t with rest, keyAllowed := false }

def readNumber (c : Cursor) : Except Error (Nat × Cursor) :=
  let digits := c.takeWhile fun m => m.char.isDigit
  if digits.isEmpty || 2 < digits.length then .error .directive
  else .ok ((textOf (digits.map Mark.char)).digitsValue, c.drop digits.length)

def readVersion (c : Cursor) : Except Error (Token × Cursor) := do
  let (major, c) ← readNumber c
  match c with
  | m :: c =>
    if m.char ≠ '.' then throw .directive
    let (minor, c) ← readNumber c
    return (.version major minor, c)
  | [] => throw .directive

/-- Reads a handle, `!` or one that ends in an exclamation mark, and what it is short for. -/
def readHandle (c : Cursor) : Except Error (Token × Cursor) := do
  match c with
  | ⟨'!', _, _, _⟩ :: c =>
    let (handle, c) := (TagName.handle? c).getD ("!", c)
    if !(c.head?.map fun m => isBlank m.char).getD false then throw .directive
    let (start, c) ← TagName.parts (c.dropWhile fun m => isBlank m.char)
    if !Cursor.atGap c then throw .directive
    return (.handle handle start, c)
  | _ => throw .directive

def readDirective (rest : Cursor) (s : Lexer) : Except Error Lexer := do
  let name := rest.takeWhile fun m => isNamePart m.char
  let rest := rest.drop name.length
  if !Cursor.atGap rest then throw .directive
  let value := rest.dropWhile fun m => isBlank m.char
  let word := textOf (name.map Mark.char)
  let (t, rest) ←
    if word = "YAML" then readVersion value
    else if word = "TAG" then readHandle value
    else throw .directive
  s.closeDocument t (← nextLine .directive rest)

def openFlow (t : Token) (m : Mark) (rest : Cursor) (s : Lexer) : Except Error Lexer := do
  let s ← s.noteKey m
  .ok { s.emit t with rest, levels := s.possible :: s.levels, possible := none, keyAllowed := true }

def closeFlow (t : Token) (rest : Cursor) (s : Lexer) : Except Error Lexer := do
  let s ← s.dropKey
  .ok { s.emit t with
    rest, possible := s.levels.headD none, levels := s.levels.tail, keyAllowed := false }

def readComma (rest : Cursor) (s : Lexer) : Except Error Lexer := do
  let s ← s.dropKey
  .ok { s.emit .comma with rest, keyAllowed := true }

def readEntry (m : Mark) (rest : Cursor) (s : Lexer) : Except Error Lexer := do
  if !s.inFlow && !s.keyAllowed then throw .misplacedEntry
  let s ← (s.openBlock m.column s.tokens.length .blockSequence).dropKey
  .ok { s.emit .entry with rest, keyAllowed := true }

def readKey (m : Mark) (rest : Cursor) (s : Lexer) : Except Error Lexer := do
  if !s.inFlow && !s.keyAllowed then throw .misplacedKey
  let s ← (s.openBlock m.column s.tokens.length .blockMapping).dropKey
  .ok { s.emit .key with rest, keyAllowed := !s.inFlow }

def readValue (m : Mark) (rest : Cursor) (s : Lexer) : Except Error Lexer := do
  match ← s.keyBefore m with
  | some k =>
    let s := { s with tokens := s.tokens.insertIdx k.position .key, possible := none }
    let s := s.openBlock k.place.column k.position .blockMapping
    .ok { s.emit .value with rest, keyAllowed := false }
  | none =>
    if !s.inFlow && !s.keyAllowed then throw .misplacedValue
    let s := { s with possible := none }.openBlock m.column s.tokens.length .blockMapping
    .ok { s.emit .value with rest, keyAllowed := !s.inFlow }

def endsName (c : Cursor) : Bool :=
  c.atGap || match c with
    | m :: _ => "?:,]\x7d%@\x60".toList.contains m.char
    | [] => true

def readName (token : Text → Token) (m : Mark) (rest : Cursor) (s : Lexer) : Except Error Lexer := do
  let s ← s.noteKey m
  let name := rest.takeWhile fun m => isNamePart m.char
  let rest := rest.drop name.length
  if name.isEmpty || !endsName rest then throw .anchor
  .ok { s.emit (token (textOf (name.map Mark.char))) with rest, keyAllowed := false }

def readTag (m : Mark) (rest : Cursor) (s : Lexer) : Except Error Lexer := do
  let s ← s.noteKey m
  let (name, rest) ← TagName.read rest
  if !Cursor.atGap rest then throw .tag
  .ok { s.emit (.tag name) with rest, keyAllowed := false }

def readBlockScalar (folds : Bool) (rest : Cursor) (s : Lexer) : Except Error Lexer := do
  let s ← s.dropKey
  let b ← readBlock folds s.indent rest
  .ok { s.emit (.scalar (textOf b.text) false) with rest := b.rest, keyAllowed := true }

def readQuotedScalar (m : Mark) (rest : Cursor) (s : Lexer) : Except Error Lexer := do
  let s ← s.noteKey m
  let q ← readQuoted m.char rest
  .ok { s.emit (.scalar (textOf q.text) false) with rest := q.rest, keyAllowed := false }

def readPlainScalar (m : Mark) (rest : Cursor) (s : Lexer) : Except Error Lexer := do
  let s ← s.noteKey m
  let p ← readPlain s.inFlow (s.indent + 1) (m :: rest)
  .ok { s.emit (.scalar (textOf p.text) true) with rest := p.rest, keyAllowed := p.lineEnded }

def startsPlain (inFlow : Bool) (m : Mark) (rest : Cursor) : Bool :=
  if m.char == '-' then !((rest.head?.map fun m => isBlank m.char).getD false)
  else if m.char == '?' || m.char == ':' then !inFlow && !rest.atGap
  else !isBlank m.char && !",[]\x7b\x7d#&*!|>'\"%@\x60".toList.contains m.char

def readToken (m : Mark) (rest : Cursor) (s : Lexer) : Except Error Lexer :=
  let here : Cursor := m :: rest
  if m.column = 0 ∧ m.char = '%' then s.readDirective rest
  else if here.atDocumentMark then
    s.closeDocument (if m.char = '-' then .documentStart else .documentEnd) (here.drop 3)
  else match m.char with
    | '[' => s.openFlow .flowSequence m rest
    | '\x7b' => s.openFlow .flowMapping m rest
    | ']' => s.closeFlow .flowSequenceEnd rest
    | '\x7d' => s.closeFlow .flowMappingEnd rest
    | ',' => s.readComma rest
    | '*' => s.readName .reference m rest
    | '&' => s.readName .anchor m rest
    | '!' => s.readTag m rest
    | '\'' | '"' => s.readQuotedScalar m rest
    | c =>
      if c = '-' ∧ rest.atGap then s.readEntry m rest
      else if c = '?' ∧ (s.inFlow ∨ rest.atGap) then s.readKey m rest
      else if c = ':' ∧ (s.inFlow ∨ rest.atGap) then s.readValue m rest
      else if c = '|' ∧ ¬ s.inFlow then s.readBlockScalar false rest
      else if c = '>' ∧ ¬ s.inFlow then s.readBlockScalar true rest
      else if startsPlain s.inFlow m rest then s.readPlainScalar m rest
      else .error .start

def next? (s : Lexer) : Option (Except Error Lexer) :=
  let here := if s.takesComment then skipLineComment s.rest else s.rest
  let (keyAllowed, rest) := skipGap s.inFlow .space s.keyAllowed here
  match rest with
  | [] => none
  | m :: rest => some (({ s with keyAllowed }.closeBlocks m.column).readToken m rest)

def finish (s : Lexer) : Except Error Lexer := (s.closeBlocks (-1)).dropKey

def run : Nat → Lexer → List Token × Option Error
  | 0, s => (s.tokens, none)
  | n + 1, s =>
    match s.next? with
    | some (.ok s) => run n s
    | some (.error e) => (s.tokens, some e)
    | none => match s.finish with
      | .ok s => (s.tokens, none)
      | .error e => (s.tokens, some e)

end Lexer

def tokens (c : Cursor) : List Token × Option Error := Lexer.run (c.length + 1) { rest := c }

end Yaml

end Offside
