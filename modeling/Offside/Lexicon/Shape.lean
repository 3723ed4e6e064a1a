/-
Shapes of token texts.

A text that is no keyword is classified by its shape: quoted, a number, one capital letter, all
capitals, capitalised, or made of punctuation signs only. The shapes are tried in this order.
-/
import Offside.Lexicon.Category

set_option autoImplicit false

namespace Offside

/-- The shapes that decide the category of a text. -/
inductive Shape
  | stringLiteral
  | characterLiteral
  | numberLiteral
  | templateType
  | constant
  | classIdentifier
  | punctuation
  deriving DecidableEq, Repr

namespace Text

def isBetween (quote : UInt8) (t : Text) : Bool :=
  2 ≤ t.length && t.head? == some quote && t.getLast? == some quote

/-! ## Numbers -/

def isHexDigit (b : UInt8) : Bool :=
  isDigit b || ('a'.toUInt8 ≤ b && b ≤ 'f'.toUInt8) || ('A'.toUInt8 ≤ b && b ≤ 'F'.toUInt8)

/-- Digits of a prefixed hexadecimal number, where underscores may stand anywhere. -/
def isHexPart (b : UInt8) : Bool := isHexDigit b || b == '_'.toUInt8

/-- Digits of a prefixed binary number, where underscores may stand anywhere. -/
def isBinaryPart (b : UInt8) : Bool := b == '0'.toUInt8 || b == '1'.toUInt8 || b == '_'.toUInt8

def isDecimalPart (b : UInt8) : Bool := isDigit b || b == '_'.toUInt8

/-- What is left of a text after a decimal exponent at its start, if it has one: `e` or `E`, an
optional sign and at least one digit. -/
def afterExponent? : Text → Option Text
  | e :: rest =>
    if e == 'e'.toUInt8 || e == 'E'.toUInt8 then
      let digits := match rest with
        | sign :: more => if sign == '+'.toUInt8 || sign == '-'.toUInt8 then more else rest
        | [] => []
      if (digits.head?.map isDigit).getD false then some (digits.dropWhile isDigit) else none
    else none
  | [] => none

/-- What is left after the exponent, or the text itself when it does not start with one. -/
def skipExponent (t : Text) : Text := (afterExponent? t).getD t

def isNumberSuffix (t : Text) : Bool := t.length ≤ 2 && t.all isLetter

/-- What follows the digits of a number that starts with a zero and one of the letters `mark`; there
is at least one digit. -/
def afterPrefixed? (mark : UInt8 → Bool) (part : UInt8 → Bool) : Text → Option Text
  | zero :: letter :: rest =>
    if zero == '0'.toUInt8 && mark letter && (rest.head?.map part).getD false then
      some (rest.dropWhile part)
    else none
  | _ => none

def isHexMark (b : UInt8) : Bool := b == 'x'.toUInt8 || b == 'X'.toUInt8

def isBinaryMark (b : UInt8) : Bool := b == 'b'.toUInt8 || b == 'B'.toUInt8

/-- What follows a fraction, in which there may be no digit at all after the point. -/
def skipLooseFraction : Text → Text
  | b :: rest => if b == '.'.toUInt8 then rest.dropWhile isDecimalPart else b :: rest
  | [] => []

/-- Is the text a decimal number with an optional fraction, exponent and suffix? -/
def isDecimalNumber : Text → Bool
  | d :: rest =>
    isDigit d && isNumberSuffix (skipExponent (skipLooseFraction (rest.dropWhile isDecimalPart)))
  | [] => false

def isNumber (t : Text) : Bool :=
  ((afterPrefixed? isHexMark isHexPart t).map isNumberSuffix).getD false ||
  ((afterPrefixed? isBinaryMark isBinaryPart t).map isNumberSuffix).getD false ||
  isDecimalNumber t

/-! ## Names and signs -/

def isTemplateType (t : Text) : Bool := t.length == 1 && t.all isUpper

/-- Is the text two or more capitals, digits and underscores, starting with a capital? -/
def isConstant : Text → Bool
  | b :: rest =>
    isUpper b && !rest.isEmpty && rest.all fun c => isUpper c || isDigit c || c == '_'.toUInt8
  | [] => false

/-- Is the text a capital followed by word bytes, among them a small letter? -/
def isClassIdentifier : Text → Bool
  | b :: rest => isUpper b && rest.all continuesWord && rest.any isLower
  | [] => false

def signs : Text := "()[]\x7b\x7d,:;.!?@$#<>-=+*/%&|^~"

def isPunctuation (t : Text) : Bool := !t.isEmpty && t.all signs.contains

end Text

namespace Shape

def all : List Shape :=
  [stringLiteral, characterLiteral, numberLiteral, templateType, constant, classIdentifier,
   punctuation]

def fits : Shape → Text → Bool
  | stringLiteral => Text.isBetween '"'.toUInt8
  | characterLiteral => Text.isBetween '\''.toUInt8
  | numberLiteral => Text.isNumber
  | templateType => Text.isTemplateType
  | constant => Text.isConstant
  | classIdentifier => Text.isClassIdentifier
  | punctuation => Text.isPunctuation

def category : Shape → Category
  | stringLiteral => .stringLiteral
  | characterLiteral => .characterLiteral
  | numberLiteral => .numberLiteral
  | templateType => .templateType
  | constant => .constant
  | classIdentifier => .classIdentifier
  | punctuation => .punctuation

end Shape

end Offside
