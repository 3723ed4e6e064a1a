/-
Diagnostics: a fault shown at its place in the source.

    error: <message>
     --> <file>:<line>
      |
    4 | <source line>
      = <reason or suggestion>

The parts are colored if that is wanted; a line that does not exist is left out.
-/
import Offside.Fault

set_option autoImplicit false

namespace Offside

/-- A terminal style: the codes that switch it on and off. -/
structure Style where
  on : Text
  off : Text

namespace Style

def redBold : Style := ⟨"31;1", "0;22"⟩

def blue : Style := ⟨"34", "0"⟩

def yellow : Style := ⟨"33", "0"⟩

def paint (color : Bool) (style : Style) (t : Text) : Text :=
  if color then "\x1b[" ++ style.on ++ "m" ++ t ++ "\x1b[" ++ style.off ++ "m" else t

end Style

namespace Text

def sourceLine? (source : Text) (n : Int) : Option Text :=
  if n < 1 then none else (source.lines[n.toNat - 1]?).map (trimEnd isIndent)

end Text

namespace Fault

def line (f : Fault) : Int :=
  match f.parseError?, f.scanError? with
  | some e, _ => e.line
  | none, some e => e.line
  | none, none => 0

def detail (f : Fault) : Text := (f.parseError?.map ParseError.detail).getD []

def render (color : Bool) (file source : Text) (f : Fault) : Text :=
  let blue := Style.blue.paint color
  let top := Style.redBold.paint color "error: " ++ f.message
  if f.line ≤ 0 then Text.join "\n" [top, "  " ++ blue "-->" ++ " " ++ file]
  else
    let number := Text.ofInt f.line
    let margin : Text := List.replicate number.length ' '.toUInt8
    let place := [margin ++ blue "-->" ++ " " ++ file ++ ":" ++ number, blue (margin ++ " |")]
    let shown := match source.sourceLine? f.line with
      | some text => [blue (number ++ " |") ++ " " ++ text]
      | none => []
    let hint :=
      if f.detail.isEmpty then []
      else [blue (margin ++ " =") ++ " " ++ Style.yellow.paint color f.detail]
    Text.join "\n" (top :: place ++ shown ++ hint)

end Fault

end Offside
