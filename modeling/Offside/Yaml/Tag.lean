/-
Tags of a YAML text.

A tag is written as a handle and what follows it, and the handle is short for the start of the full
tag. Two handles are known from the start: `!`, which is short for itself, and `!!` for the common
tags. A directive may change these and add others. The common tags are kept in the form `!!name`,
however they were written.
-/
import Offside.Yaml.Mark

set_option autoImplicit false

namespace Offside

namespace Yaml

/-- The full tag of a node, with the common ones in their short form such as `!!str`. -/
abbrev Tag := Text

namespace Tag

def common : Text := "tag:yaml.org,2002:"

def ofFull (t : Text) : Tag :=
  match Text.after? common t with
  | some name => "!!" ++ name
  | none => t

def unspecific : Tag := "!"

end Tag

/-- The handles, each with what it is short for. The first entry for a handle counts. -/
abbrev Handles := List (Text × Text)

def Handles.default : Handles := [("!", "!"), ("!!", Tag.common)]

/-- A tag as it is written. One that is written out has no handle. -/
structure TagName where
  handle : Text
  suffix : Text
  deriving DecidableEq, Repr

namespace TagName

def tag? (t : TagName) (handles : Handles) : Option Tag :=
  if t.handle.isEmpty then some (.ofFull t.suffix)
  else (handles.lookup t.handle).map fun start => .ofFull (start ++ t.suffix)

/-! ## Reading tags -/

/-- The characters that tags consist of, apart from those that are escaped. -/
def isPart (c : Char) : Bool := isNamePart c || ";/?:@&=+$.,!~*'()[]".toList.contains c

def following? (first : UInt8) : Option Nat :=
  if first < 0x80 then some 0
  else if first < 0xC0 then none
  else if first < 0xE0 then some 1
  else if first < 0xF0 then some 2
  else if first < 0xF8 then some 3
  else none

/-- How many bytes are due after this one, of which `due` were due before it. -/
def dueAfter? (due : Nat) (b : UInt8) : Option Nat :=
  match due with
  | 0 => following? b
  | due + 1 => if b &&& 0xC0 = 0x80 then some due else none

def octet? (a b : Mark) : Option UInt8 := do
  let high ← hexDigit? a.char
  let low ← hexDigit? b.char
  return UInt8.ofNat (16 * high + low)

/-- Reads the characters of a tag. A percent sign and two digits stand for a byte; `due` is the
number of bytes that are still missing from a character that is written in this way. -/
def partsFrom (due : Nat) : Cursor → Except Error (Text × Cursor)
  | [] => if due = 0 then .ok ([], []) else .error .tag
  | m :: rest =>
    if m.char = '%' then
      match rest with
      | a :: b :: rest =>
        match octet? a b with
        | some o =>
          match dueAfter? due o with
          | some due => (partsFrom due rest).map fun (t, rest) => (o :: t, rest)
          | none => .error .tag
        | none => .error .tag
      | _ => .error .tag
    else if due ≠ 0 then .error .tag
    else if isPart m.char then
      (partsFrom 0 rest).map fun (t, rest) => (String.utf8EncodeChar m.char ++ t, rest)
    else .ok ([], m :: rest)

def parts (c : Cursor) : Except Error (Text × Cursor) := do
  let (t, rest) ← partsFrom 0 c
  if t.isEmpty then .error .tag else .ok (t, rest)

/-- Reads a handle: a name between two exclamation marks, the first of which was read. -/
def handle? (c : Cursor) : Option (Text × Cursor) :=
  let name := c.takeWhile fun m => isNamePart m.char
  match c.drop name.length with
  | m :: rest =>
    if m.char = '!' then some ("!" ++ textOf (name.map Mark.char) ++ "!", rest) else none
  | [] => none

/-- Reads a tag after its first exclamation mark: `!<...>` written out, `!name!...` with a handle,
`!...`, or `!` alone. -/
def read (c : Cursor) : Except Error (TagName × Cursor) :=
  match c, handle? c with
  | ⟨'<', _, _, _⟩ :: c, _ => do
    let (suffix, rest) ← parts c
    match rest with
    | m :: rest => if m.char = '>' then .ok (⟨[], suffix⟩, rest) else .error .tag
    | [] => .error .tag
  | _, some (handle, c) => (parts c).map fun (suffix, rest) => (⟨handle, suffix⟩, rest)
  | c, none =>
    (partsFrom 0 c).map fun (suffix, rest) =>
      (if suffix.isEmpty then ⟨[], Tag.unspecific⟩ else ⟨"!", suffix⟩, rest)

end TagName

end Yaml

end Offside
