/-
Quoted text.

A quoted text stands in double quotes. Quotes and backslashes take a backslash, the usual control
characters their letter, other control characters and stray bytes two hexadecimal digits, and
characters that do not print four or eight of them. What is left is printable and stands as it is.
-/
import Offside.Text.Printable

set_option autoImplicit false

namespace Offside

namespace Symbol

/-- The letter that escapes a control character after a backslash, for those that have one. -/
def controlLetter? (n : Nat) : Option UInt8 :=
  match n with
  | 0x07 => some 'a'.toUInt8
  | 0x08 => some 'b'.toUInt8
  | 0x0C => some 'f'.toUInt8
  | 0x0A => some 'n'.toUInt8
  | 0x0D => some 'r'.toUInt8
  | 0x09 => some 't'.toUInt8
  | 0x0B => some 'v'.toUInt8
  | _ => none

def quoted (s : Symbol) : Text :=
  match s with
  | stray b => "\\x" ++ Text.hexDigits 2 b.toNat
  | scalar c =>
    let n := c.toNat
    if c = '"' ∨ c = '\\' then '\\'.toUInt8 :: s.bytes
    else if isPrintableCode n then s.bytes
    else match controlLetter? n with
      | some letter => ['\\'.toUInt8, letter]
      | none =>
        if n < 0x20 ∨ n = 0x7F then "\\x" ++ Text.hexDigits 2 n
        else if n < 0x10000 then "\\u" ++ Text.hexDigits 4 n
        else "\\U" ++ Text.hexDigits 8 n

end Symbol

namespace Text

/-- The text in double quotes, with everything escaped that does not print. -/
def quoted (t : Text) : Text :=
  ['"'.toUInt8] ++ t.symbols.flatMap Symbol.quoted ++ ['"'.toUInt8]

end Text

end Offside
