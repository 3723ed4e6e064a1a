/-
The characters of a text.

`Text.symbols` reads bytes as UTF-8. A byte that starts no well-formed character is a symbol of its
own, so every text has exactly one reading and nothing is lost: the bytes of the symbols are the
text.
-/
import Offside.Text.Basic

set_option autoImplicit false

namespace Offside

/-- One character of a text, or one byte that belongs to none. -/
inductive Symbol
  | scalar (c : Char)
  | stray (b : UInt8)
  deriving DecidableEq, Repr

namespace Symbol

def bytes : Symbol → Text
  | scalar c => String.utf8EncodeChar c
  | stray b => [b]

def code : Symbol → Nat
  | scalar c => c.toNat
  | stray _ => 0xFFFD

/-- The bytes of the symbol's code point. They differ from `bytes` on stray bytes only. -/
def mended : Symbol → Text
  | scalar c => String.utf8EncodeChar c
  | stray _ => String.utf8EncodeChar (Char.ofNat 0xFFFD)

def char? : Symbol → Option Char
  | scalar c => some c
  | stray _ => none

def continuation? (b : UInt8) : Option Nat :=
  if 0x80 ≤ b ∧ b ≤ 0xBF then some (b.toNat - 0x80) else none

/-- A code point that needs at least `least` to be the shortest form and is no surrogate. -/
def checked? (least code : Nat) : Option Char :=
  if least ≤ code ∧ code.isValidChar then some (Char.ofNat code) else none

/-- The character that starts with byte `b` when `rest` follows, and how many bytes of `rest` belong
to it. -/
def decode? (b : UInt8) (rest : Text) : Option (Char × Nat) :=
  if b < 0x80 then some (Char.ofNat b.toNat, 0)
  else if 0xC2 ≤ b ∧ b ≤ 0xDF then do
    let c₁ ← rest[0]? >>= continuation?
    let c ← checked? 0x80 ((b.toNat - 0xC0) * 0x40 + c₁)
    return (c, 1)
  else if 0xE0 ≤ b ∧ b ≤ 0xEF then do
    let c₁ ← rest[0]? >>= continuation?
    let c₂ ← rest[1]? >>= continuation?
    let c ← checked? 0x800 (((b.toNat - 0xE0) * 0x40 + c₁) * 0x40 + c₂)
    return (c, 2)
  else if 0xF0 ≤ b ∧ b ≤ 0xF4 then do
    let c₁ ← rest[0]? >>= continuation?
    let c₂ ← rest[1]? >>= continuation?
    let c₃ ← rest[2]? >>= continuation?
    let c ← checked? 0x10000 ((((b.toNat - 0xF0) * 0x40 + c₁) * 0x40 + c₂) * 0x40 + c₃)
    return (c, 3)
  else none

end Symbol

namespace Text

/-- The symbols of a text of which the first `skip` bytes belong to a symbol already read. -/
def symbolsAfter : Nat → Text → List Symbol
  | _, [] => []
  | skip + 1, _ :: rest => symbolsAfter skip rest
  | 0, b :: rest =>
    match Symbol.decode? b rest with
    | some (c, more) => .scalar c :: symbolsAfter more rest
    | none => .stray b :: symbolsAfter 0 rest

def symbols (t : Text) : List Symbol := symbolsAfter 0 t

def isUtf8 (t : Text) : Bool := t.symbols.all fun s => s.char?.isSome

def toString? (t : Text) : Option String := (t.symbols.mapM Symbol.char?).map String.ofList

end Text

end Offside
