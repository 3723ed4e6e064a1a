/-
File paths.

Paths are text with slashes between their elements. These functions look at the text only, never at
the files.
-/
import Offside.Text.Basic

set_option autoImplicit false

namespace Offside

namespace Path

def slash : UInt8 := '/'.toUInt8

def isSlash (b : UInt8) : Bool := b == slash

/-- The last element of a path, trailing slashes left out. The empty path is the current directory. -/
def base (path : Text) : Text :=
  if path.isEmpty then "."
  else
    let stem := Text.trimEnd isSlash path
    if stem.isEmpty then "/" else (stem.reverse.takeWhile fun b => !isSlash b).reverse

/-- The part of the last element from its last dot on; empty if there is no dot. -/
def extension (path : Text) : Text :=
  let element := path.reverse.takeWhile fun b => !isSlash b
  if element.contains '.'.toUInt8 then
    '.'.toUInt8 :: (element.takeWhile fun b => b != '.'.toUInt8).reverse
  else []

def withExtension (path ext : Text) : Text := Text.withoutEnd (extension path) path ++ ext

def isAbsolute (path : Text) : Bool := path.head? = some slash

/-- One element after the elements of an absolute path, the innermost of which comes first. -/
def enter (element : Text) (elements : List Text) : List Text :=
  if element.isEmpty || element = "." then elements
  else if element = ".." then elements.tail
  else element :: elements

/-- The elements of a path from an absolute directory on, the innermost first. -/
def elementsFrom (directory : List Text) (path : Text) : List Text :=
  (Text.pieces slash path).foldl (fun elements e => enter e elements)
    (if isAbsolute path then [] else directory)

def ofElements (elements : List Text) : Text :=
  if elements.isEmpty then "/" else elements.reverse.flatMap fun e => slash :: e

def enterRelative (element : Text) (elements : List Text) : List Text :=
  if element = ".." ∧ (elements.isEmpty ∨ elements.head? = some "..") then element :: elements
  else enter element elements

def clean (path : Text) : Text :=
  if isAbsolute path then ofElements (elementsFrom [] path)
  else
    let elements := (Text.pieces slash path).foldl (fun elements e => enterRelative e elements) []
    if elements.isEmpty then "." else Text.join [slash] elements.reverse

end Path

end Offside
