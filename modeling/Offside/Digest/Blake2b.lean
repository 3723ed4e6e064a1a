/-
The BLAKE2b digest with 32 bytes and without a key.

The text is cut into blocks of 128 bytes, the last one filled up with zeros. Each block is mixed
into a state of eight words in twelve rounds, together with the number of bytes read so far; the
last block is marked as such. The digest is the first four words of the state.
-/
import Offside.Text.Basic

set_option autoImplicit false

namespace Offside

namespace Blake2b

def initial : Vector UInt64 8 :=
  #v[0x6A09E667F3BCC908, 0xBB67AE8584CAA73B, 0x3C6EF372FE94F82B, 0xA54FF53A5F1D36F1,
     0x510E527FADE682D1, 0x9B05688C2B3E6C1F, 0x1F83D9ABFB41BD6B, 0x5BE0CD19137E2179]

def orders : List (Vector (Fin 16) 16) :=
  [#v[0, 1, 2, 3, 4, 5, 6, 7, 8, 9, 10, 11, 12, 13, 14, 15],
   #v[14, 10, 4, 8, 9, 15, 13, 6, 1, 12, 0, 2, 11, 7, 5, 3],
   #v[11, 8, 12, 0, 5, 2, 15, 13, 10, 14, 3, 6, 7, 1, 9, 4],
   #v[7, 9, 3, 1, 13, 12, 11, 14, 2, 6, 5, 10, 4, 0, 15, 8],
   #v[9, 0, 5, 7, 2, 4, 10, 15, 14, 1, 11, 12, 6, 8, 3, 13],
   #v[2, 12, 6, 10, 0, 11, 8, 3, 4, 13, 7, 5, 15, 14, 1, 9],
   #v[12, 5, 1, 15, 14, 13, 4, 10, 0, 7, 6, 3, 9, 2, 8, 11],
   #v[13, 11, 7, 14, 12, 1, 3, 9, 5, 0, 15, 4, 8, 6, 2, 10],
   #v[6, 15, 14, 9, 11, 3, 0, 8, 12, 2, 13, 7, 1, 4, 10, 5],
   #v[10, 2, 8, 4, 7, 6, 1, 5, 15, 11, 9, 14, 3, 12, 13, 0],
   #v[0, 1, 2, 3, 4, 5, 6, 7, 8, 9, 10, 11, 12, 13, 14, 15],
   #v[14, 10, 4, 8, 9, 15, 13, 6, 1, 12, 0, 2, 11, 7, 5, 3]]

def rotate (w : UInt64) (n : UInt64) : UInt64 := (w >>> n) ||| (w <<< (64 - n))

/-- Four places of the working state that are mixed with each other. -/
structure Quarter where
  a : Fin 16
  b : Fin 16
  c : Fin 16
  d : Fin 16

def quarters : List Quarter :=
  [⟨0, 4, 8, 12⟩, ⟨1, 5, 9, 13⟩, ⟨2, 6, 10, 14⟩, ⟨3, 7, 11, 15⟩,
   ⟨0, 5, 10, 15⟩, ⟨1, 6, 11, 12⟩, ⟨2, 7, 8, 13⟩, ⟨3, 4, 9, 14⟩]

def mix (v : Vector UInt64 16) (q : Quarter) (x y : UInt64) : Vector UInt64 16 :=
  let a := v[q.a] + v[q.b] + x
  let d := rotate (v[q.d] ^^^ a) 32
  let c := v[q.c] + d
  let b := rotate (v[q.b] ^^^ c) 24
  let a := a + b + y
  let d := rotate (d ^^^ a) 16
  let c := c + d
  let b := rotate (b ^^^ c) 63
  (((v.set q.a a).set q.b b).set q.c c).set q.d d

def round (block : Vector UInt64 16) (v : Vector UInt64 16) (order : Vector (Fin 16) 16) :
    Vector UInt64 16 :=
  let words := order.toList.map fun i => block[i]
  let pairs := (List.range 8).map fun i => (words.getD (2 * i) 0, words.getD (2 * i + 1) 0)
  (quarters.zip pairs).foldl (fun v (q, x, y) => mix v q x y) v

def word (bytes : Text) : UInt64 := bytes.foldr (fun b w => (w <<< 8) ||| b.toUInt64) 0

def words (block : Text) : Vector UInt64 16 :=
  let padded := block ++ List.replicate (128 - block.length) 0
  Vector.ofFn fun i => word ((padded.drop (8 * i.val)).take 8)

/-- Mixes a block into the state. `count` is the number of bytes up to the end of the block. -/
def compress (h : Vector UInt64 8) (block : Text) (count : Nat) (last : Bool) : Vector UInt64 8 :=
  let v := h ++ initial
  let v := v.set 12 (v[12] ^^^ count.toUInt64)
  let v := v.set 13 (v[13] ^^^ (count / Nat.pow 2 64).toUInt64)
  let v := if last then v.set 14 (~~~v[14]) else v
  let m := words block
  let v := orders.foldl (round m) v
  Vector.ofFn fun i => h[i] ^^^ v[i.val] ^^^ v[i.val + 8]

/-- Mixes `count` blocks and what follows them into the state; `offset` bytes were read before. -/
def absorb (h : Vector UInt64 8) (offset : Nat) (t : Text) : Nat → Vector UInt64 8
  | 0 => compress h t (offset + t.length) true
  | count + 1 =>
    absorb (compress h (t.take 128) (offset + 128) false) (offset + 128) (t.drop 128) count

/-- The state after the whole text. The first word of the initial state tells the digest's length. -/
def state (t : Text) : Vector UInt64 8 :=
  absorb (initial.set 0 (initial[0] ^^^ 0x01010020)) 0 t ((t.length - 1) / 128)

def bytes (w : UInt64) : Text := (List.range 8).map fun i => (w >>> (8 * i).toUInt64).toUInt8

def digest (t : Text) : Text := ((state t).toList.take 4).flatMap bytes

end Blake2b

namespace Text

def fingerprint (t : Text) : Text := (Blake2b.digest t).flatMap fun b => hexDigits 2 b.toNat

end Text

end Offside
