/-
Text in UTF-16.

The bytes are read in pairs as units of sixteen bits, in either order. A character beyond the first
65536 is written as two units, a high and a low surrogate; neither of them may stand alone.
-/
import Offside.Text.Basic

set_option autoImplicit false

namespace Offside

/-- Which byte of a unit comes first. -/
inductive ByteOrder
  | little
  | big
  deriving DecidableEq, Repr

namespace ByteOrder

def unit (order : ByteOrder) (a b : UInt8) : Nat :=
  match order with
  | little => a.toNat + 256 * b.toNat
  | big => 256 * a.toNat + b.toNat

end ByteOrder

namespace Utf16

def isHigh (unit : Nat) : Bool := 0xD800 ≤ unit && unit < 0xDC00

def isLow (unit : Nat) : Bool := 0xDC00 ≤ unit && unit < 0xE000

def paired (high low : Nat) : Char := Char.ofNat (0x10000 + 0x400 * (high - 0xD800) + (low - 0xDC00))

def units? (order : ByteOrder) : Text → Option (List Nat)
  | [] => some []
  | [_] => none
  | a :: b :: rest => (units? order rest).map (order.unit a b :: ·)

/-- The characters that units spell, if every surrogate is one of a pair. -/
def chars? : List Nat → Option (List Char)
  | [] => some []
  | [u] => if isHigh u || isLow u then none else some [Char.ofNat u]
  | u :: v :: rest =>
    if isHigh u then if isLow v then (chars? rest).map (paired u v :: ·) else none
    else if isLow u then none
    else (chars? (v :: rest)).map (Char.ofNat u :: ·)

def decode? (order : ByteOrder) (t : Text) : Option (List Char) := units? order t >>= chars?

end Utf16

end Offside
