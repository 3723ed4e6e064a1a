/-
Scalars of a YAML text.

The four ways to write text: plain, in single or double quotes, and as a block. Lines that are
folded are joined by a space, and an empty line between them stays as a line end. Each reader runs
through the characters once and returns what it read and what follows.
-/
import Offside.Yaml.Mark

set_option autoImplicit false

namespace Offside

namespace Yaml

/-- White space that was read but not yet kept: blanks on the line, or else the line ends. -/
structure Gap where
  blanks : List Char := []
  breaks : List Char := []

namespace Gap

def isEmpty (g : Gap) : Bool := g.blanks.isEmpty && g.breaks.isEmpty

def hasBreak (g : Gap) : Bool := !g.breaks.isEmpty

def blank (g : Gap) (c : Char) : Gap := if g.hasBreak then g else { g with blanks := g.blanks ++ [c] }

def lineEnd (g : Gap) (c : Char) : Gap := { blanks := [], breaks := g.breaks ++ [breakText c] }

def folded (g : Gap) : List Char :=
  match g.breaks with
  | [] => g.blanks
  | first :: others =>
    if first != '\n' then first :: others
    else if others.isEmpty then [' ']
    else others

end Gap

/-! ## Plain scalars -/

/-- A plain scalar: its text, whether lines ended after it, and what follows. -/
structure Plain where
  text : List Char
  lineEnded : Bool
  rest : Cursor

/-- Does a plain scalar end before this character, which does not stand in a gap? -/
def endsPlain (inFlow : Bool) (m : Mark) (rest : Cursor) : Bool :=
  (m.char == ':' && rest.atGap) || (inFlow && ",?[]\x7b\x7d".toList.contains m.char)

def endsPlainLine (inFlow : Bool) (indent : Int) (m : Mark) (rest : Cursor) : Bool :=
  (!inFlow && (m.column : Int) < indent) || Cursor.atDocumentMark (m :: rest) || m.char == '#'

/-- Reads on in a plain scalar. Its lines have to be indented by at least `indent`. -/
def plainFrom (inFlow : Bool) (indent : Int) (text : List Char) (gap : Gap) :
    Cursor → Except Error Plain
  | [] => .ok ⟨text.reverse, gap.hasBreak, []⟩
  | m :: rest =>
    if isBlank m.char then
      if m.char == '\t' && gap.hasBreak && (m.column : Int) < indent then .error .tab
      else plainFrom inFlow indent text (gap.blank m.char) rest
    else if isBreak m.char then plainFrom inFlow indent text (gap.lineEnd m.char) rest
    else if (!gap.isEmpty && endsPlainLine inFlow indent m rest) || endsPlain inFlow m rest then
      .ok ⟨text.reverse, gap.hasBreak, m :: rest⟩
    else plainFrom inFlow indent (m.char :: (gap.folded.reverse ++ text)) {} rest

def readPlain (inFlow : Bool) (indent : Int) (c : Cursor) : Except Error Plain :=
  plainFrom inFlow indent [] {} c

/-! ## Quoted scalars -/

def escaped? : Char → Option Char
  | '0' => some '\x00'
  | 'a' => some '\x07'
  | 'b' => some '\x08'
  | 't' => some '\t'
  | '\t' => some '\t'
  | 'n' => some '\n'
  | 'v' => some '\x0b'
  | 'f' => some '\x0c'
  | 'r' => some '\r'
  | 'e' => some '\x1b'
  | ' ' => some ' '
  | '"' => some '"'
  | '\'' => some '\''
  | '\\' => some '\\'
  | 'N' => some '\u0085'
  | '_' => some '\u00a0'
  | 'L' => some '\u2028'
  | 'P' => some '\u2029'
  | _ => none

def escapeWidth? : Char → Option Nat
  | 'x' => some 2
  | 'u' => some 4
  | 'U' => some 8
  | _ => none

def hexChar? (width : Nat) (c : Cursor) : Option Char := do
  let digits ← (c.take width).mapM fun m => hexDigit? m.char
  if digits.length < width then none
  let n := digits.foldl (fun n d => 16 * n + d) 0
  if n.isValidChar then some (Char.ofNat n) else none

/-- The character that an escape stands for and its length, the backslash left out. -/
def escape? : Cursor → Option (Char × Nat)
  | [] => none
  | m :: rest =>
    match escapeWidth? m.char with
    | some width => (hexChar? width rest).map fun c => (c, width + 1)
    | none => (escaped? m.char).map fun c => (c, 1)

/-- Text read from quotes, and what follows. -/
structure Quoted where
  text : List Char
  rest : Cursor

/-- Reads on between quotes. The first `skip` characters belong to an escape that was read; `joined`
says that a line end was escaped, so that blanks at the start of the next line do not count. -/
def quotedFrom (quote : Char) (skip : Nat) (joined : Bool) (text : List Char) (gap : Gap) :
    Cursor → Except Error Quoted
  | [] => .error .unclosedQuote
  | m :: rest =>
    match skip with
    | skip + 1 => quotedFrom quote skip joined text gap rest
    | 0 =>
      if isBlank m.char then
        quotedFrom quote 0 joined text (if joined then gap else gap.blank m.char) rest
      else if isBreak m.char then
        quotedFrom quote 0 joined text
          (if joined then { gap with breaks := gap.breaks ++ [breakText m.char] } else gap.lineEnd m.char)
          rest
      else
        let kept := (if joined then gap.breaks else gap.folded).reverse ++ text
        if Cursor.atDocumentMark (m :: rest) then .error .documentInQuote
        else if m.char = quote then
          if quote = '\'' ∧ (rest.head?.map Mark.char) = some quote then
            quotedFrom quote 1 false (quote :: kept) {} rest
          else .ok ⟨kept.reverse, rest⟩
        else if quote = '"' ∧ m.char = '\\' then
          match rest with
          | [] => .error .escape
          | next :: _ =>
            if isBreak next.char then quotedFrom quote 1 true kept {} rest
            else match escape? rest with
              | some (c, length) => quotedFrom quote length false (c :: kept) {} rest
              | none => .error .escape
        else quotedFrom quote 0 false (m.char :: kept) {} rest

def readQuoted (quote : Char) (c : Cursor) : Except Error Quoted := quotedFrom quote 0 false [] {} c

/-! ## Block scalars -/

/-- What happens to the line ends after a block. -/
inductive Chomping
  | strip
  | clip
  | keep
  deriving DecidableEq, Repr

/-- The indicators on the first line of a block. -/
structure BlockHeader where
  chomping : Chomping := .clip
  /-- The extra indentation, if it is given. -/
  increment : Option Nat := none

namespace BlockHeader

def chomping? : Char → Option Chomping
  | '-' => some .strip
  | '+' => some .keep
  | _ => none

/-- Takes one indicator into account, if it is one and was not given before. -/
def indicator? (h : BlockHeader) (c : Char) : Option BlockHeader :=
  match chomping? c with
  | some chomping => if h.chomping = .clip then some { h with chomping } else none
  | none =>
    if c.isDigit && h.increment.isNone && c != '0' then
      some { h with increment := some (c.toNat - '0'.toNat) }
    else none

def read (h : BlockHeader) : Nat → Cursor → BlockHeader × Cursor
  | 0, c => (h, c)
  | _ + 1, [] => (h, [])
  | n + 1, m :: rest =>
    match h.indicator? m.char with
    | some h => read h n rest
    | none => (h, m :: rest)

end BlockHeader

/-- What follows on the next line. The rest of this one may only hold a comment. -/
def nextLine (error : Error) (c : Cursor) : Except Error Cursor :=
  let c := c.dropWhile fun m => isBlank m.char
  let c := if (c.head?.map Mark.char) = some '#' then c.dropWhile fun m => !isBreak m.char else c
  match c with
  | [] => .ok []
  | m :: rest => if isBreak m.char then .ok rest else .error error

/-- The indentation of the first line of a block that is not empty, or of a longer empty line before
it. -/
def blockIndent (least : Nat) : Cursor → Except Error Nat
  | [] => .ok least
  | m :: rest =>
    let least := max least m.column
    if m.char = ' ' ∨ isBreak m.char then blockIndent least rest
    else if m.char = '\t' then .error .tab
    else .ok least

/-- A block that is being read. -/
structure Block where
  text : List Char := []
  /-- The line end after the last line. -/
  lineEnd : List Char := []
  /-- The empty lines after it. -/
  empties : List Char := []
  /-- Did the last line start with a blank? Such lines are not folded. -/
  blankLine : Bool := false

namespace Block

/-- The text with the line ends after the last line, when another line follows. -/
def joined (folds : Bool) (b : Block) (blankNext : Bool) : List Char :=
  let lineEnd :=
    if folds && !b.blankLine && !blankNext && b.lineEnd.head? = some '\n' then
      if b.empties.isEmpty then [' '] else []
    else b.lineEnd
  b.empties.reverse ++ lineEnd.reverse ++ b.text

def closed (chomping : Chomping) (b : Block) : List Char :=
  let lineEnd := if chomping = .strip then [] else b.lineEnd
  let empties := if chomping = .keep then b.empties else []
  (empties.reverse ++ lineEnd.reverse ++ b.text).reverse

end Block

/-- Reads the lines of a block. `inLine` says that reading stands inside a line. -/
def blockFrom (folds : Bool) (chomping : Chomping) (indent : Nat) (inLine : Bool) (b : Block) :
    Cursor → Except Error Quoted
  | [] => .ok ⟨b.closed chomping, []⟩
  | m :: rest =>
    if isBreak m.char then
      if inLine then blockFrom folds chomping indent false { b with lineEnd := [breakText m.char] } rest
      else
        blockFrom folds chomping indent false { b with empties := b.empties ++ [breakText m.char] } rest
    else if inLine then
      blockFrom folds chomping indent true { b with text := m.char :: b.text } rest
    else if m.column < indent then
      if m.char = ' ' then blockFrom folds chomping indent false b rest
      else if m.char = '\t' then .error .tab
      else .ok ⟨b.closed chomping, m :: rest⟩
    else
      let blank := isBlank m.char
      blockFrom folds chomping indent true
        { text := m.char :: b.joined folds blank, blankLine := blank } rest

/-- Reads a block inside a node that is indented by `outer`, or by `-1` at the top. -/
def readBlock (folds : Bool) (outer : Int) (c : Cursor) : Except Error Quoted := do
  let (header, c) := BlockHeader.read {} 2 c
  let c ← nextLine .blockHeader c
  let indent ← match header.increment with
    | some n => .ok (outer.toNat + n)
    | none => (blockIndent 0 c).map fun n => max n (max 1 (outer + 1).toNat)
  blockFrom folds header.chomping indent false {} c

end Yaml

end Offside
