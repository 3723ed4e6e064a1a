/-
Suggestions for misspelled keywords.

A keyword is suggested for a word that is at most two edits away from it, or that abbreviates it:
the letters of the word, in either case, occur in the keyword in their order. Candidates are ordered
by a score and then by their spelling, and the best three are kept.
-/
import Offside.Lexicon.Keyword
import Offside.Text.EditDistance

set_option autoImplicit false

namespace Offside

namespace Suggestion

def minLength : Nat := 3

def maxDistance : Nat := 2

def maxCount : Nat := 3

/-- The small ASCII letter or other ASCII character that a code point folds to, if there is one. Of
the characters outside ASCII only the dotted capital I and the Kelvin sign fold to ASCII. -/
def fold? (n : Nat) : Option Nat :=
  if 'A'.toNat ≤ n ∧ n ≤ 'Z'.toNat then some (n + 32)
  else if n < 0x80 then some n
  else if n = 0x130 then some 'i'.toNat
  else if n = 0x212A then some 'k'.toNat
  else none

def abbreviates (word keyword : Text) : Bool :=
  match word.symbols.mapM fun s => fold? s.code with
  | some codes => codes.isSublist (keyword.map UInt8.toNat)
  | none => false

/-- How near a keyword is to a word. -/
structure Nearness where
  distance : Text → Text → Nat := Text.distance
  /-- How far it is from a word that abbreviates it. -/
  rank? : Text → Text → Option Nat := fun word keyword =>
    if abbreviates word keyword then some (Text.distance word keyword) else none

/-- How far a keyword is from a word, if it is a candidate at all. Abbreviations rank behind
misspellings. -/
def score? (near : Nearness) (word keyword : Text) : Option Nat :=
  let d := near.distance word keyword
  if d ≤ maxDistance then some d else (near.rank? word keyword).map (· + maxDistance)

def le (a b : Nat × Text) : Bool :=
  if a.1 = b.1 then Text.le a.2 b.2 else decide (a.1 ≤ b.1)

def candidates (near : Nearness) (word : Text) : List (Nat × Text) :=
  (Keyword.spellings.filter fun k => k.isWord && k != word).filterMap fun k =>
    (score? near word k).map fun s => (s, k)

def suggest (word : Text) (near : Nearness := {}) : List Text :=
  if word.length < minLength then []
  else (((candidates near word).mergeSort le).take maxCount).map Prod.snd

end Suggestion

end Offside
