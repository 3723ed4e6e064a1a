/-
The words of a line.

A line without its indentation is cut into words by an ordered list of rules. At each position the
first rule that applies decides, not the longest match; each rule says how many bytes it takes. Gaps
are words too, so the words of a line spell the line.
-/
import Offside.Text.Blank
import Offside.Token.Basic

set_option autoImplicit false

namespace Offside

/-- The rules that cut a line into words, in the order in which they are tried. -/
inductive WordRule
  | gap
  | comment
  | string
  | character
  | comparator
  | number
  | name
  | operator
  | symbol
  deriving DecidableEq, Repr

/-- A piece of a line and the rule that cut it. -/
structure Word where
  rule : WordRule
  text : Text
  deriving DecidableEq, Repr

namespace Text

/-- How many bytes a line needs up to and with the first `quote` that no backslash escapes. -/
def closingQuote? (quote : UInt8) : Text → Option Nat
  | [] => none
  | [b] => if b = quote then some 1 else none
  | b :: c :: rest =>
    if b = quote then some 1
    else if b = '\\'.toUInt8 then (closingQuote? quote rest).map (· + 2)
    else (closingQuote? quote (c :: rest)).map (· + 1)

/-- The length of a quoted literal at the start of the text; zero if there is none. -/
def quotedLength (quote : UInt8) : Text → Nat
  | [] => 0
  | b :: rest => if b = quote then ((closingQuote? quote rest).map (· + 1)).getD 0 else 0

/-- The length of `first`, at least one space or tab, and `second`, which no word byte may follow;
zero if the text does not start so. -/
def twoWordLength (first second : Text) (t : Text) : Nat :=
  match after? first t with
  | none => 0
  | some rest =>
    let gap := rest.takeWhile isIndent
    match after? second (rest.drop gap.length) with
    | none => 0
    | some tail =>
      if gap.isEmpty || (tail.head?.map continuesWord).getD false then 0
      else first.length + gap.length + second.length

/-- What follows a fraction, which has a digit directly after the point. -/
def skipFraction : Text → Text
  | b :: c :: rest =>
    if b == '.'.toUInt8 && isDigit c then rest.dropWhile isDecimalPart else b :: c :: rest
  | t => t

/-- What follows the letters that may end a number, of which at most two are taken. -/
def skipSuffix (t : Text) : Text := t.drop (min 2 (t.takeWhile isLetter).length)

def afterNumber? (t : Text) : Option Text :=
  match afterPrefixed? isHexMark isHexPart t with
  | some rest => some rest
  | none =>
    match afterPrefixed? isBinaryMark isBinaryPart t with
    | some rest => some rest
    | none =>
      match t with
      | d :: rest =>
        if isDigit d then
          some (skipSuffix (skipExponent (skipFraction (rest.dropWhile isDecimalPart))))
        else none
      | [] => none

/-- Signs that are written with more than one byte, in the order in which they are tried. -/
def longSigns : List Text :=
  ["->", "..", "<<=", ">>=", "^^", "<<", ">>", "<=", ">=", "==", "!=", "-=", "+=", "*=", "/=",
   "%=", "~=", "&=", "|=", "^="]

def shortSigns : Text := "-+*/%~&|^<>=!.,:;()[]\x7b\x7d?@$"

end Text

namespace WordRule

def all : List WordRule :=
  [gap, comment, string, character, comparator, number, name, operator, symbol]

/-- How many bytes the rule takes at the start of the text; zero if it does not apply. -/
def length : WordRule → Text → Nat
  | gap, t => (t.takeWhile Text.isGap).length
  | comment, t => if t.head? = some '#'.toUInt8 then t.length else 0
  | string, t => Text.quotedLength '"'.toUInt8 t
  | character, t => Text.quotedLength '\''.toUInt8 t
  | comparator, t =>
    max (Text.twoWordLength "less" "than" t)
      (max (Text.twoWordLength "more" "than" t) (Text.twoWordLength "equal" "to" t))
  | number, t => ((Text.afterNumber? t).map fun rest => t.length - rest.length).getD 0
  | name, t =>
    if (t.head?.map Text.startsWord).getD false then (t.takeWhile Text.continuesWord).length else 0
  | operator, t => ((Text.longSigns.find? (·.isPrefixOf t)).map List.length).getD 0
  | symbol, t => if (t.head?.map Text.shortSigns.contains).getD false then 1 else 0

/-- The first rule that applies at the start of the text, with the number of bytes it takes. -/
def first? (t : Text) : Option (WordRule × Nat) :=
  (all.find? fun rule => 0 < rule.length t).map fun rule => (rule, rule.length t)

end WordRule

namespace Word

/-- The words of a line of which the first `skip` bytes belong to a word already cut. Where no rule
applies the answer is the rest of the line from there on. -/
def cutAfter : Nat → Text → Except Text (List Word)
  | _, [] => .ok []
  | skip + 1, _ :: rest => cutAfter skip rest
  | 0, b :: rest =>
    match WordRule.first? (b :: rest) with
    | none => .error (b :: rest)
    | some (rule, n) =>
      match cutAfter (n - 1) rest with
      | .ok words => .ok (⟨rule, (b :: rest).take n⟩ :: words)
      | .error tail => .error tail

def cut (line : Text) : Except Text (List Word) := cutAfter 0 line

/-- A comment's sign, which is `#.` when the text starts so and else `#`. -/
def commentSign (t : Text) : Text := if (Text.after? "#." t).isSome then "#." else "#"

def respaced (t : Text) : Text :=
  let first := t.takeWhile fun b => !Text.isIndent b
  first ++ " " ++ (t.drop first.length).dropWhile Text.isIndent

/-- The tokens of a word on the given line and level. Gaps have none, and a comment has its sign
and, unless it is blank, its trimmed text. -/
def tokens (line level : Nat) (w : Word) : List Token :=
  match w.rule with
  | .gap => []
  | .comment =>
    let sign := commentSign w.text
    let text := Text.trim (w.text.drop sign.length)
    { text := sign, line := line, level := level } ::
      (if text.isEmpty then [] else [{ text := text, line := line, level := level, raw := true }])
  | .comparator => [{ text := respaced w.text, line := line, level := level }]
  | _ => [{ text := w.text, line := line, level := level }]

end Word

end Offside
