/-
Versions and their order.

A version is `MAJOR.MINOR.PATCH`, followed by `-` and a prerelease and by `+` and a build, both of
which may be missing. `MAJOR` and `MAJOR.MINOR` alone are versions too. The build does not take part
in the order, so it is checked and dropped; what is left compares as numbers, and a prerelease comes
before its release.
-/
import Offside.Text.Basic

set_option autoImplicit false

namespace Offside

namespace Text

def digitsValue (digits : Text) : Nat := digits.foldl (fun n d => 10 * n + (d.toNat - '0'.toNat)) 0

end Text

/-- One of the identifiers that make up a prerelease. -/
inductive PreIdent
  | number (n : Nat)
  | word (t : Text)
  deriving DecidableEq, Repr

structure Version where
  major : Nat
  minor : Nat := 0
  patch : Nat := 0
  /-- The identifiers of the prerelease; a release has none. -/
  pre : List PreIdent := []
  deriving DecidableEq, Repr

namespace PreIdent

def isPart (b : UInt8) : Bool := Text.isLetter b || Text.isDigit b || b == '-'.toUInt8

def isNumeral (t : Text) : Bool :=
  !t.isEmpty && t.all Text.isDigit && (t.length == 1 || t.head? != some '0'.toUInt8)

def ofText? (t : Text) : Option PreIdent :=
  if t.isEmpty || !t.all isPart then none
  else if !t.all Text.isDigit then some (word t)
  else if isNumeral t then some (number t.digitsValue)
  else none

def compare : PreIdent → PreIdent → Ordering
  | number a, number b => Ord.compare a b
  | number _, word _ => .lt
  | word _, number _ => .gt
  | word a, word b => if a = b then .eq else if Text.le a b then .lt else .gt

/-- Identifier by identifier; where one list ends the shorter one comes first. -/
def compareAll : List PreIdent → List PreIdent → Ordering
  | [], [] => .eq
  | [], _ :: _ => .lt
  | _ :: _, [] => .gt
  | a :: as, b :: bs => (compare a b).then (compareAll as bs)

end PreIdent

namespace Version

/-- The part before the first byte `sep`, and what follows it if there is one. -/
def cut (sep : UInt8) (t : Text) : Text × Option Text :=
  let head := t.takeWhile (· != sep)
  (head, if head.length < t.length then some (t.drop (head.length + 1)) else none)

def core? (t : Text) : Option (List Nat) :=
  (Text.pieces '.'.toUInt8 t).mapM fun part =>
    if PreIdent.isNumeral part then some (Text.digitsValue part) else none

def pre? (t : Text) : Option (List PreIdent) := (Text.pieces '.'.toUInt8 t).mapM PreIdent.ofText?

def isBuild (t : Text) : Bool :=
  (Text.pieces '.'.toUInt8 t).all fun part => !part.isEmpty && part.all PreIdent.isPart

def ofText? (t : Text) : Option Version :=
  let t := (Text.after? "v" t).getD t
  let (front, build) := cut '+'.toUInt8 t
  let (core, pre) := cut '-'.toUInt8 front
  match core? core, pre, build with
  | some [major], none, none => some { major }
  | some [major, minor], none, none => some { major, minor }
  | some [major, minor, patch], pre, build =>
    if (build.map isBuild).getD true then
      match pre with
      | none => some { major, minor, patch }
      | some p => (pre? p).map fun pre => { major, minor, patch, pre }
    else none
  | _, _, _ => none

def comparePre : List PreIdent → List PreIdent → Ordering
  | [], [] => .eq
  | [], _ :: _ => .gt
  | _ :: _, [] => .lt
  | as, bs => PreIdent.compareAll as bs

def compare (a b : Version) : Ordering :=
  (Ord.compare a.major b.major).then <| (Ord.compare a.minor b.minor).then <|
    (Ord.compare a.patch b.patch).then (comparePre a.pre b.pre)

/-- The order of texts that may or may not be versions: what is no version comes before all that
are. -/
def compareTexts (a b : Text) : Ordering :=
  match ofText? a, ofText? b with
  | none, none => .eq
  | none, some _ => .lt
  | some _, none => .gt
  | some a, some b => compare a b

end Version

end Offside
