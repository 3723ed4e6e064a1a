/-
The stamp of a generated file.

Generated files start with two comment lines: where they came from, and the fingerprint of the
source they were translated from. A file is up to date when the recorded fingerprint is that of the
source.
-/
import Offside.Digest.Blake2b
import Offside.Path
import Offside.Text.Blank

set_option autoImplicit false

namespace Offside

namespace Stamp

def mark : Text := "// source blake2b-256: "

def header (file source : Text) (fingerprint : Text → Text := Text.fingerprint) : Text :=
  "// Code generated by delight from " ++ Path.base file ++ "; DO NOT EDIT.\n" ++
    mark ++ fingerprint source ++ "\n\n"

def maxLine : Nat := 65535

/-- The lines of a generated file, without line ends. There is no line after the last line end. -/
def lines (generated : Text) : List Text :=
  let all := Text.pieces '\n'.toUInt8 generated
  if all.getLast? = some [] then all.dropLast else all

/-- The fingerprint in the lines of a file. Only comment lines at the start are searched, and
nothing after a line that is too long. -/
def find? : List Text → Option Text
  | [] => none
  | line :: rest =>
    if maxLine < line.length then none
    else
      let line := Text.withoutEnd "\r" line
      if (Text.after? "//" line).isNone then none
      else match Text.after? mark line with
        | some fingerprint => some (Text.trim fingerprint)
        | none => find? rest

def recorded? (generated : Text) : Option Text := find? (lines generated)

end Stamp

end Offside
