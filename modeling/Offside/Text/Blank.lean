/-
White space, and trimming it.

The class is the Unicode property White_Space. It is wider than the bytes that separate words in
Delight source (`Text.isGap`); comments and raw lines are trimmed with it.
-/
import Offside.Text.Utf8

set_option autoImplicit false

namespace Offside

def isBlankCode (n : Nat) : Bool :=
  (0x09 ≤ n && n ≤ 0x0D) || n == 0x20 || n == 0x85 || n == 0xA0 || n == 0x1680 ||
    (0x2000 ≤ n && n ≤ 0x200A) || n == 0x2028 || n == 0x2029 || n == 0x202F || n == 0x205F ||
    n == 0x3000

namespace Symbol

def isBlank (s : Symbol) : Bool := isBlankCode s.code

end Symbol

namespace Text

def trim (t : Text) : Text :=
  let kept := (t.symbols.dropWhile Symbol.isBlank).reverse.dropWhile Symbol.isBlank
  kept.reverse.flatMap Symbol.bytes

end Text

end Offside
