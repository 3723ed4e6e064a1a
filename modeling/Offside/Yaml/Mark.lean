/-
Characters of a YAML text and their places.

YAML depends on columns and on where lines end, so the text is read as characters that know their
place. What remains to be read is then simply a list, and its head says where reading stands.
-/
import Offside.Text.Utf16
import Offside.Text.Utf8

set_option autoImplicit false

namespace Offside

namespace Yaml

/-- Why a text is not YAML. -/
inductive Error
  | encoding
  | control
  | tab
  | start
  | unclosedQuote
  | documentInQuote
  | escape
  | blockHeader
  | directive
  | version
  | tag
  | handle
  | anchor
  | unknownAlias
  | missingColon
  | misplacedKey
  | misplacedValue
  | misplacedEntry
  | unexpected
  | duplicateKey
  | compoundKey
  | mismatchedTag
  | base64
  | mergeSource
  deriving DecidableEq, Repr

namespace Error

def cause : Error → Text
  | encoding => "invalid character encoding"
  | control => "control characters are not allowed"
  | tab => "found a tab character that violates indentation"
  | start => "found character that cannot start any token"
  | unclosedQuote => "found unexpected end of stream"
  | documentInQuote => "found unexpected document indicator"
  | escape => "found unknown escape character"
  | blockHeader => "did not find expected comment or line break"
  | directive => "found unknown directive"
  | version => "found incompatible YAML document"
  | tag => "did not find expected tag"
  | handle => "found undefined tag handle"
  | anchor => "did not find expected alphabetic or numeric character"
  | unknownAlias => "unknown anchor referenced"
  | missingColon => "could not find expected ':'"
  | misplacedKey => "mapping keys are not allowed in this context"
  | misplacedValue => "mapping values are not allowed in this context"
  | misplacedEntry => "block sequence entries are not allowed in this context"
  | unexpected => "did not find expected node content"
  | duplicateKey => "mapping key already defined"
  | compoundKey => "invalid map key"
  | mismatchedTag => "cannot decode value as its tag"
  | base64 => "!!binary value contains invalid base64 data"
  | mergeSource => "map merge requires map or sequence of maps as the value"

def message (e : Error) : Text := "yaml: " ++ e.cause

end Error

/-! ## Classes of characters -/

def isBlank (c : Char) : Bool := c == ' ' || c == '\t'

def isBreak (c : Char) : Bool := c == '\n' || c == '\u0085' || c == '\u2028' || c == '\u2029'

def breakText (c : Char) : Char := if c = '\u0085' then '\n' else c

def isNamePart (c : Char) : Bool := c.isAlphanum || c == '_' || c == '-'

def hexDigit? (c : Char) : Option Nat :=
  if c.isDigit then some (c.toNat - '0'.toNat)
  else if 'a' ≤ c ∧ c ≤ 'f' then some (c.toNat - 'a'.toNat + 10)
  else if 'A' ≤ c ∧ c ≤ 'F' then some (c.toNat - 'A'.toNat + 10)
  else none

def isAllowed (c : Char) : Bool :=
  let n := c.toNat
  n == 0x09 || n == 0x0A || n == 0x0D || (0x20 ≤ n && n ≤ 0x7E) || n == 0x85 ||
    (0xA0 ≤ n && n ≤ 0xFFFD) || 0x10000 ≤ n

def byteOrderMark : Char := '\ufeff'

/-- The characters of a text. It is UTF-8 unless it starts with the mark in UTF-16. -/
def charsOf? : Text → Option (List Char)
  | 0xFF :: 0xFE :: rest => Utf16.decode? .little rest
  | 0xFE :: 0xFF :: rest => Utf16.decode? .big rest
  | t => (t.symbols.mapM Symbol.char?).map fun chars =>
    if chars.head? = some byteOrderMark then chars.tail else chars

/-! ## Places -/

/-- A character and its place. -/
structure Mark where
  char : Char
  line : Nat
  column : Nat
  index : Nat
  deriving Repr

/-- What remains to be read. -/
abbrev Cursor := List Mark

/-- The characters from a place on. A carriage return, with a newline after it or not, becomes a
newline. -/
def marksFrom (line column index : Nat) : List Char → Cursor
  | [] => []
  | '\r' :: '\n' :: rest => ⟨'\n', line, column, index⟩ :: marksFrom (line + 1) 0 (index + 2) rest
  | c :: rest =>
    let c := if c = '\r' then '\n' else c
    ⟨c, line, column, index⟩ ::
      if isBreak c then marksFrom (line + 1) 0 (index + 1) rest
      else marksFrom line (column + 1) (index + 1) rest

def marks (t : Text) : Except Error Cursor :=
  match charsOf? t with
  | none => .error .encoding
  | some chars =>
    if chars.all isAllowed then .ok (marksFrom 0 0 0 chars) else .error .control

namespace Cursor

def atGap : Cursor → Bool
  | [] => true
  | m :: _ => isBlank m.char || isBreak m.char

def atLineEnd : Cursor → Bool
  | [] => true
  | m :: _ => isBreak m.char

def startsWith (s : String) (c : Cursor) : Bool := s.toList.isPrefixOf (c.map Mark.char |>.take s.length)

def atDocumentMark (c : Cursor) : Bool :=
  match c with
  | [] => false
  | m :: _ => m.column == 0 && (startsWith "---" c || startsWith "..." c) && atGap (c.drop 3)

end Cursor

def textOf (chars : List Char) : Text := chars.flatMap String.utf8EncodeChar

end Yaml

end Offside
