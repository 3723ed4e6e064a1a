/-
What scalars stand for.

A plain scalar without a tag is null, a boolean, a number, a date or else text, depending on how it
is spelled. Some tags say which of these it has to be; with any other tag it is text, and so it is
when it was quoted and has no tag. The size of a number does not matter here, only that it has one.
-/
import Offside.Version
import Offside.Yaml.Tag

set_option autoImplicit false

namespace Offside

namespace Yaml

/-- What a scalar stands for. -/
inductive Scalar
  | null
  | bool (b : Bool)
  /-- An integer of 64 bits, and whether they leave room for a sign. -/
  | integer (signed : Bool)
  | decimal
  /-- A number that is not finite, by its name. -/
  | special (name : Text)
  /-- A moment in time, in its full form. -/
  | moment (t : Text)
  | text (t : Text)
  deriving DecidableEq, Repr

namespace Scalar

def tag : Scalar → Tag
  | null => "!!null"
  | bool _ => "!!bool"
  | integer _ => "!!int"
  | decimal => "!!float"
  | special _ => "!!float"
  | moment _ => "!!timestamp"
  | text _ => "!!str"

def words : List (Text × Scalar) := List.flatten [
  (["", "~", "null", "Null", "NULL"] : List Text).map fun t => (t, null),
  (["true", "True", "TRUE"] : List Text).map fun t => (t, bool true),
  (["false", "False", "FALSE"] : List Text).map fun t => (t, bool false),
  ([".nan", ".NaN", ".NAN"] : List Text).map fun t => (t, special "NaN"),
  ([".inf", ".Inf", ".INF", "+.inf", "+.Inf", "+.INF"] : List Text).map fun t =>
    (t, special "+Inf"),
  (["-.inf", "-.Inf", "-.INF"] : List Text).map fun t => (t, special "-Inf")]

end Scalar

namespace Numeral

/-! ## Integers -/

def digit? (b : UInt8) : Option Nat := hexDigit? (Char.ofNat b.toNat)

def valueIn? (base : Nat) (digits : Text) : Option Nat :=
  digits.foldlM (fun n b => do
    let d ← digit? b
    if d < base then some (base * n + d) else none) 0

def signed (t : Text) : Bool × Text :=
  match t with
  | b :: rest =>
    if b = '-'.toUInt8 then (true, rest) else if b = '+'.toUInt8 then (false, rest) else (false, t)
  | [] => (false, [])

def fitsSigned (negative : Bool) (n : Nat) : Bool :=
  if negative then n ≤ Nat.pow 2 63 else n < Nat.pow 2 63

/-- Reads digits in a base, of a number that was written with a sign or without one, as an integer
of 64 bits. The answer says whether they leave room for a sign, as they have to if it was written. -/
def digitsIn? (base : Nat) (withSign negative : Bool) (digits : Text) : Option Bool := do
  let n ← valueIn? base digits
  if digits.isEmpty then none
  else if fitsSigned negative n then some true
  else if !withSign && n < Nat.pow 2 64 then some false
  else none

def integerIn? (base : Nat) (t : Text) : Option Bool :=
  let (negative, digits) := signed t
  digitsIn? base (digits.length != t.length) negative digits

def based (t : Text) : Nat × Text :=
  match t with
  | zero :: letter :: rest =>
    if zero != '0'.toUInt8 then (10, t)
    else
      let lower := (Char.ofNat letter.toNat).toLower
      if rest.isEmpty then (8, [letter])
      else if lower = 'b' then (2, rest)
      else if lower = 'o' then (8, rest)
      else if lower = 'x' then (16, rest)
      else (8, letter :: rest)
  | _ => (10, t)

def based? (t : Text) : Option Bool :=
  let (negative, numeral) := signed t
  let (base, digits) := based numeral
  digitsIn? base (numeral.length != t.length) negative digits

/-- Reads an integer after the mark of its base, where its sign may follow the mark. -/
def marked? (mark : Text) (base : Nat) (t : Text) : Option Bool :=
  match Text.after? mark t, Text.after? ("-" ++ mark) t with
  | some digits, _ => integerIn? base digits
  | none, some digits => integerIn? base ("-" ++ digits)
  | none, none => none

def integer? (t : Text) : Option Bool :=
  (based? t).or ((marked? "0b" 2 t).or (marked? "0o" 8 t))

/-! ## Decimals -/

/-- A decimal number: its digits with the point left out, and the power of ten to multiply with. -/
structure Decimal where
  digits : Text
  exponent : Int

def decimal? (t : Text) : Option Decimal :=
  let whole := t.takeWhile Text.isDigit
  let t := t.drop whole.length
  let (pointed, t) := match Text.after? "." t with
    | some rest => (true, rest)
    | none => (false, t)
  let fraction := if pointed then t.takeWhile Text.isDigit else []
  let t := t.drop fraction.length
  let digits := whole ++ fraction
  if digits.isEmpty then none
  else match t with
    | [] => some ⟨digits, -fraction.length⟩
    | e :: rest =>
      let (negative, power) := signed rest
      if (e = 'e'.toUInt8 ∨ e = 'E'.toUInt8) ∧ ¬ power.isEmpty ∧ power.all Text.isDigit then
        let n : Int := Text.digitsValue power
        some ⟨digits, (if negative then -n else n) - fraction.length⟩
      else none

def tooLarge : Nat := Nat.pow 2 1024 - Nat.pow 2 970

def Decimal.isFinite (d : Decimal) : Bool :=
  let n := d.digits.digitsValue
  if n = 0 then true
  else if 400 + d.digits.length < d.exponent.toNat then false
  else if 0 ≤ d.exponent then n * Nat.pow 10 d.exponent.toNat < tooLarge
  else if d.digits.length ≤ (-d.exponent).toNat then true
  else n < tooLarge * Nat.pow 10 (-d.exponent).toNat

def isDecimal (t : Text) : Bool := ((decimal? (signed t).2).map Decimal.isFinite).getD false

def underscored (t : Text) : Bool :=
  let around := (none :: t.map some).zip (t.zip ((t.map some).tail ++ [none]))
  around.all fun (before, b, after) =>
    b != '_'.toUInt8 || ((before.map Text.isDigit).getD false && (after.map Text.isDigit).getD false)

end Numeral

/-! ## Dates -/

namespace Moment

def short? (t : Text) : Option (Nat × Text) :=
  let digits := (t.take 2).takeWhile Text.isDigit
  if digits.isEmpty then none else some (Text.digitsValue digits, t.drop digits.length)

def daysIn (year month : Nat) : Nat :=
  if month = 2 then if (year % 4 = 0 ∧ year % 100 ≠ 0) ∨ year % 400 = 0 then 29 else 28
  else if [4, 6, 9, 11].contains month then 30 else 31

def digits2 (n : Nat) : Text := if n < 10 then "0" ++ Text.ofNat n else Text.ofNat n

def date? (t : Text) : Option (Text × Text) := do
  let year : Text := t.takeWhile Text.isDigit
  if year.length ≠ 4 then none
  let (month, t) ← short? (← Text.after? "-" (t.drop 4))
  let (day, t) ← short? (← Text.after? "-" t)
  if month < 1 ∨ 12 < month ∨ day < 1 ∨ daysIn year.digitsValue month < day then none
  some (year ++ "-" ++ digits2 month ++ "-" ++ digits2 day, t)

/-- Reads the fraction of a second and writes it with at most nine digits. -/
def fraction (t : Text) : Text × Text :=
  match t with
  | point :: rest =>
    let digits := rest.takeWhile Text.isDigit
    if (point = '.'.toUInt8 ∨ point = ','.toUInt8) ∧ ¬ digits.isEmpty then
      let kept := Text.trimEnd (· == '0'.toUInt8) (digits.take 9)
      (if kept.isEmpty then [] else "." ++ kept, rest.drop digits.length)
    else ([], t)
  | [] => ([], [])

def time? (t : Text) : Option (Text × Text) := do
  let (hour, t) ← short? t
  let (minute, t) ← short? (← Text.after? ":" t)
  let (second, t) ← short? (← Text.after? ":" t)
  if 24 ≤ hour ∨ 60 ≤ minute ∨ 60 ≤ second then none
  let (part, t) := fraction t
  some (digits2 hour ++ ":" ++ digits2 minute ++ ":" ++ digits2 second ++ part, t)

def zone? (t : Text) : Option Text :=
  if t = "Z" then some "Z"
  else if t.length ≠ 6 ∨ (t.drop 3).head? ≠ some ':'.toUInt8 then none
  else
    let hours : Text := (t.drop 1).take 2
    let minutes : Text := t.drop 4
    if ¬ (hours ++ minutes).all Text.isDigit ∨ 24 < hours.digitsValue ∨ 60 < minutes.digitsValue then
      none
    else
      let n := 60 * hours.digitsValue + minutes.digitsValue
      let shown (sign : Text) : Text := sign ++ digits2 (n / 60) ++ ":" ++ digits2 (n % 60)
      match t.head? with
      | some sign =>
        if sign ≠ '+'.toUInt8 ∧ sign ≠ '-'.toUInt8 then none
        else some (if n = 0 then "Z" else shown [sign])
      | none => none

/-- Reads a date, or a date and a time, and writes it in full. Without a zone it is universal. -/
def ofText? (t : Text) : Option Text := do
  let (date, t) ← date? t
  match t with
  | [] => some (date ++ "T00:00:00Z")
  | b :: rest =>
    if b = 'T'.toUInt8 ∨ b = 't'.toUInt8 then
      let (time, t) ← time? rest
      let zone ← zone? t
      some (date ++ "T" ++ time ++ zone)
    else if b = ' '.toUInt8 then
      let (time, t) ← time? (rest.dropWhile (· == ' '.toUInt8))
      if t.isEmpty then some (date ++ "T" ++ time ++ "Z") else none
    else none

end Moment

/-! ## Scalars -/

namespace Scalar

def ofNumeral (t : Text) : Scalar :=
  match Moment.ofText? t with
  | some m => moment m
  | none =>
    let plain := t.filter (· != '_'.toUInt8)
    match Numeral.integer? plain with
    | some signed => integer signed
    | none => if Numeral.isDecimal plain then decimal else text t

def ofPlain (t : Text) : Scalar :=
  match words.lookup t with
  | some s => s
  | none => match t with
    | [] => null
    | b :: _ =>
      if Text.isDigit b || b == '+'.toUInt8 || b == '-'.toUInt8 then ofNumeral t
      else if b == '.'.toUInt8 && Numeral.underscored t &&
          Numeral.isDecimal (t.filter (· != '_'.toUInt8)) then
        decimal
      else text t

end Scalar

/-! ## Binary text -/

namespace Base64

def alphabet : Text := "ABCDEFGHIJKLMNOPQRSTUVWXYZabcdefghijklmnopqrstuvwxyz0123456789+/"

def pad : UInt8 := '='.toUInt8

def groups? : Text → Option Text
  | [] => some []
  | a :: b :: c :: d :: rest => do
    let value (x : UInt8) : Option Nat := alphabet.idxOf? x
    let a ← value a
    let b ← value b
    let first := UInt8.ofNat (a * 4 + b / 16)
    if c = pad then if d = pad ∧ rest.isEmpty then some [first] else none
    else
      let c ← value c
      let second := UInt8.ofNat (b % 16 * 16 + c / 4)
      if d = pad then if rest.isEmpty then some [first, second] else none
      else
        let d ← value d
        return first :: second :: UInt8.ofNat (c % 4 * 64 + d) :: (← groups? rest)
  | _ => none

/-- The bytes that base-64 text stands for. Line ends in it do not count. -/
def decode? (t : Text) : Option Text :=
  groups? (t.filter fun b => b != '\n'.toUInt8 && b != '\r'.toUInt8)

end Base64

namespace Scalar

def typeTags : List Tag := ["!!null", "!!bool", "!!int", "!!float", "!!timestamp"]

/-- What a scalar with a tag stands for. An integer with room for a sign may be tagged as a decimal.
Tags that are not known do not matter. -/
def ofTagged (tag : Tag) (t : Text) : Except Error Scalar :=
  if tag = "!!binary" then
    match Base64.decode? t with
    | some bytes => .ok (text (bytes.symbols.flatMap Symbol.mended))
    | none => .error .base64
  else if !typeTags.contains tag then .ok (text t)
  else
    let s := ofPlain t
    if s.tag = tag then .ok s
    else if tag = "!!float" ∧ s = integer true then .ok decimal
    else .error .mismatchedTag

def resolve (tag : Option Tag) (plain : Bool) (t : Text) : Except Error Scalar :=
  match tag with
  | some tag => ofTagged tag t
  | none => .ok (if plain then ofPlain t else text t)

end Scalar

end Yaml

end Offside
