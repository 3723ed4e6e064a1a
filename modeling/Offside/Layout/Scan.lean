/-
From source text to rows.

Lines are read one after the other. A blank line carries nothing. Any other line has to be indented
by a whole number of units, not more than one deeper than the line before it; the first line that is
indented fixes the unit, unless it is given. A line that consists of a comment sign or `passthrough`
alone opens a raw block: the lines below it that are indented deeper are taken verbatim, and blank
lines between two of them count.
-/
import Offside.Layout.Row
import Offside.Log
import Offside.Token.Stream

set_option autoImplicit false

namespace Offside

/-- Source text that is no Delight: where and why. A column of zero is unknown. -/
structure ScanError where
  line : Int
  column : Int := 0
  text : Text
  deriving DecidableEq, Repr

namespace ScanError

def message (e : ScanError) : Text :=
  let place := "On line " ++ Text.ofInt e.line
  if 0 < e.column then place ++ ", column " ++ Text.ofInt e.column ++ ": " ++ e.text
  else place ++ ": " ++ e.text

end ScanError

/-- A raw block whose lines are being read. -/
structure RawBlock where
  /-- The level of the line that opened the block. -/
  base : Nat
  /-- Has the block any line yet? -/
  started : Bool := false
  /-- Blank lines since the last line of the block. -/
  blanks : Nat := 0
  deriving DecidableEq, Repr

/-- What is known while lines are being read. -/
structure Reading where
  /-- The indentation unit, empty as long as it is unknown. -/
  unit : Text
  /-- The line of words that fixed the unit, with its indentation. -/
  detected : Option (Nat × Text) := none
  /-- The raw block that may still go on. -/
  raw : Option RawBlock := none
  /-- The rows so far, the latest first. -/
  rows : List Row := []
  deriving DecidableEq, Repr

/-- Reading may stop at a line, and what was known there stays visible. -/
abbrev Reading.Step := EStateM ScanError Reading

namespace Reading

def indentation (line : Text) : Text := line.takeWhile Text.isIndent

def content (line : Text) : Text := Text.trimEnd Text.isGap (line.dropWhile Text.isIndent)

def opensRaw (content : Text) : Bool :=
  (["#", "#.", "passthrough", "passthrough:"] : List Text).contains (Text.trim content)

/-- How many units make up the indentation, if it is a whole number of them. -/
def levelIn? (unit leading : Text) : Option Nat :=
  let n := leading.length / unit.length
  if Text.repeated n unit = leading then some n else none

/-- The level of a line of words. An indentation fixes the unit if none is known. -/
def levelOf (number : Nat) (leading : Text) : Step Nat := do
  if leading.isEmpty then return 0
  if (← get).unit.isEmpty then
    modify fun s => { s with unit := leading, detected := some (number, leading) }
  let unit := (← get).unit
  match levelIn? unit leading with
  | some level => return level
  | none =>
    throw { line := number, text :=
      "inconsistent indentation " ++ leading.quoted ++ " (unit is " ++ unit.quoted ++ ")" }

/-- A line of words must start at level zero, or not more than one level below the row before it. -/
def checkLevel (number level : Nat) : Step Unit := do
  match (← get).rows.head? with
  | none =>
    if level ≠ 0 then
      throw { line := number, text := "unexpected indentation on first line" }
  | some row =>
    if row.level + 1 < level then
      throw { line := number, text :=
        "indentation jumps from level " ++ Text.ofNat row.level ++ " to " ++ Text.ofNat level }

/-- At most sixteen characters of a text, followed by three dots if there were more. -/
def excerpt (t : Text) : Text :=
  let shown := (t.symbols.take 16).flatMap Symbol.mended
  if 16 < t.symbols.length then shown ++ "..." else shown

/-- The words of a line. A line that cannot be cut fails at the column where no rule applies,
counted in characters after the indentation. -/
def wordsOf (number margin : Nat) (content : Text) : Step (List Word) :=
  match Word.cut content with
  | .ok words => return words
  | .error rest =>
    let before : Text := content.take (content.length - rest.length)
    throw { line := number, column := margin + before.symbols.length + 1, text :=
      "invalid input text " ++ (excerpt rest).quoted }

def readWords (number : Nat) (line : Text) : Step Unit := do
  let leading := indentation line
  let content := content line
  let level ← levelOf number leading
  checkLevel number level
  let words ← wordsOf number leading.length content
  modify fun s => { s with
    rows := .words number level words :: s.rows
    raw := if opensRaw content then some { base := level } else none }

/-- The rows for the blank lines that came before line `number` of a raw block. A block does not
start with blank lines. -/
def blankRows (number : Nat) (block : RawBlock) : List Row :=
  if block.started then
    (List.range block.blanks).map fun i => .verbatim (number - block.blanks + i) (block.base + 1) []
  else []

def rawText? (unit : Text) (base : Nat) (line : Text) : Option Text :=
  if unit.isEmpty then none else Text.after? (Text.repeated (base + 1) unit) line

/-- Reads a line as one of the raw block; the answer says whether it was one. A line that is not
indented deeper than the block's opener ends the block. -/
def readRaw (number : Nat) (line : Text) (block : RawBlock) : Step Bool := do
  if (content line).isEmpty then
    modify fun s => { s with raw := some { block with blanks := block.blanks + 1 } }
    return true
  if (← get).unit.isEmpty then
    modify fun s => { s with unit := indentation line }
  match rawText? (← get).unit block.base line with
  | some text =>
    let row := Row.verbatim number (block.base + 1) (Text.trimEnd Text.isGap text)
    modify fun s => { s with
      rows := row :: (blankRows number block).reverse ++ s.rows
      raw := some { block with started := true, blanks := 0 } }
    return true
  | none =>
    modify fun s => { s with raw := none }
    return false

def readLine (number : Nat) (line : Text) : Step Unit := do
  if let some block := (← get).raw then
    if ← readRaw number line block then return
  if !(content line).isEmpty then readWords number line

def readLines : Nat → List Text → Step Unit
  | _, [] => return
  | number, line :: lines => do
    readLine number line
    readLines (number + 1) lines

end Reading

/-- A scanned source: its tokens, and the indentation unit to write with. -/
structure Scanned where
  unit : Text
  tokens : List Token
  deriving DecidableEq, Repr

/-- The outcome of scanning, with the line that fixed the indentation unit, if one did. -/
structure Scan where
  detected : Option (Nat × Text)
  outcome : Except ScanError Scanned

/-- Scans a source. The unit is found in the source when `unit` is empty. -/
def scan (unit source : Text) : Scan :=
  match (Reading.readLines 1 source.lines).run { unit := unit } with
  | .ok _ s => ⟨s.detected, .ok ⟨Stream.unitOr s.unit, Row.allTokens s.rows.reverse⟩⟩
  | .error e s => ⟨s.detected, .error e⟩

namespace Scan

def records (file : Text) (s : Scan) : List Log.Record :=
  (match s.detected with
    | some (number, unit) =>
      [{ level := .debug, message := "indentation unit detected",
         values := [("line", Text.ofNat number), ("unit", unit.quoted)] }]
    | none => []) ++
  (match s.outcome with
    | .ok scanned =>
      [{ level := .debug, message := "scanned",
         values := [("file", file), ("tokens", Text.ofNat scanned.tokens.length),
           ("indentation", scanned.unit.quoted)] }]
    | .error _ => [])

end Scan

end Offside
