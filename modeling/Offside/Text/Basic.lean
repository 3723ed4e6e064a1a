/-
Program text as bytes.

Source files reach the translator as bytes that need not be valid UTF-8, and most of what they hold
is copied to the output unchanged. So text is a list of bytes everywhere in the library; the modules
beside this one give the views in which characters matter (`Text.symbols`, `Text.quoted`).
String literals stand for their UTF-8 bytes through a coercion that the kernel can evaluate.
-/
set_option autoImplicit false

namespace Offside

/-- Text is a list of bytes. -/
abbrev Text := List UInt8

namespace Text

def ofString (s : String) : Text := s.toList.flatMap String.utf8EncodeChar

instance : Coe String Text := ⟨ofString⟩

/-! ## Numbers -/

def ofNat (n : Nat) : Text := (Nat.toDigits 10 n).map Char.toUInt8

def ofInt : Int → Text
  | .ofNat n => ofNat n
  | .negSucc n => '-'.toUInt8 :: ofNat (n + 1)

def hexDigits (width n : Nat) : Text :=
  let digits := (Nat.toDigits 16 n).map Char.toUInt8
  List.replicate (width - digits.length) '0'.toUInt8 ++ digits

/-! ## Byte classes -/

def isUpper (b : UInt8) : Bool := 'A'.toUInt8 ≤ b && b ≤ 'Z'.toUInt8

def isLower (b : UInt8) : Bool := 'a'.toUInt8 ≤ b && b ≤ 'z'.toUInt8

def isDigit (b : UInt8) : Bool := '0'.toUInt8 ≤ b && b ≤ '9'.toUInt8

def isLetter (b : UInt8) : Bool := isUpper b || isLower b

def startsWord (b : UInt8) : Bool := isLetter b || b == '_'.toUInt8

def continuesWord (b : UInt8) : Bool := startsWord b || isDigit b

def isIndent (b : UInt8) : Bool := b == ' '.toUInt8 || b == '\t'.toUInt8

def isGap (b : UInt8) : Bool := isIndent b || b == '\r'.toUInt8

/-- Is the text one word, that is a letter or underscore followed by word bytes? -/
def isWord : Text → Bool
  | [] => false
  | b :: rest => startsWord b && rest.all continuesWord

/-! ## Cutting and joining -/

def join (sep : Text) (parts : List Text) : Text := sep.intercalate parts

def trimEnd (p : UInt8 → Bool) (t : Text) : Text := (t.reverse.dropWhile p).reverse

def after? (head t : Text) : Option Text :=
  if head.isPrefixOf t then some (t.drop head.length) else none

def withoutEnd (tail t : Text) : Text :=
  if tail.isSuffixOf t then t.take (t.length - tail.length) else t

def repeated (n : Nat) (t : Text) : Text := (List.replicate n t).flatten

/-- The pieces between the occurrences of the byte `sep`: one more than there are occurrences. -/
def pieces (sep : UInt8) : Text → List Text
  | [] => [[]]
  | b :: rest =>
    if b = sep then [] :: pieces sep rest
    else match pieces sep rest with
      | [] => [[b]]
      | piece :: others => (b :: piece) :: others

def unifyLineEnds : Text → Text
  | [] => []
  | b :: rest =>
    if b = '\r'.toUInt8 ∧ rest.head? = some '\n'.toUInt8 then unifyLineEnds rest
    else b :: unifyLineEnds rest

/-- The lines of the text, whichever of the two line ends it uses. A text that ends in a newline has
an empty last line. -/
def lines (t : Text) : List Text := pieces '\n'.toUInt8 (unifyLineEnds t)

def le (a b : Text) : Bool := decide (a ≤ b)

end Text

end Offside
