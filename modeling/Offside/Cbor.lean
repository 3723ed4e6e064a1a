/-
Canonical CBOR.

The binary format in which tokens are printed. Lengths are given in front, every number is as short
as it can be, and the keys of a map are in order, so a value has one encoding.
-/
import Offside.Text.Basic

set_option autoImplicit false

namespace Offside

inductive Cbor
  | nat (n : Nat)
  /-- The integer `-1 - n`. -/
  | negative (n : Nat)
  | text (t : Text)
  | array (items : List Cbor)
  /-- A map whose keys are given in increasing order. -/
  | map (members : List (Nat × Cbor))
  | bool (b : Bool)
  deriving Repr

namespace Cbor

def int : Int → Cbor
  | .ofNat n => nat n
  | .negSucc n => negative n

def bigEndian : Nat → Nat → Text
  | 0, _ => []
  | width + 1, n => UInt8.ofNat (n / Nat.pow 256 width % 256) :: bigEndian width n

/-- The head of an item: its kind and a number, in as few bytes as possible. -/
def head (kind n : Nat) : Text :=
  let first (low : Nat) : UInt8 := UInt8.ofNat (kind * 32 + low)
  if n < 24 then [first n]
  else if n < 256 then first 24 :: bigEndian 1 n
  else if n < Nat.pow 256 2 then first 25 :: bigEndian 2 n
  else if n < Nat.pow 256 4 then first 26 :: bigEndian 4 n
  else first 27 :: bigEndian 8 n

mutual

def encode : Cbor → Text
  | nat n => head 0 n
  | negative n => head 1 n
  | text t => head 3 t.length ++ t
  | array items => head 4 items.length ++ encodeItems items
  | map members => head 5 members.length ++ encodeMembers members
  | bool b => head 7 (if b then 21 else 20)

def encodeItems : List Cbor → Text
  | [] => []
  | item :: rest => item.encode ++ encodeItems rest

def encodeMembers : List (Nat × Cbor) → Text
  | [] => []
  | (key, value) :: rest => head 0 key ++ value.encode ++ encodeMembers rest

end

end Cbor

end Offside
