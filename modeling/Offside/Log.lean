/-
Log records.

A record is a message with named values and is written on one line as `key=value` pairs. A value
that could be misread, because it is empty or holds a space, an equals sign, a quote or anything
that does not print, is quoted.
-/
import Offside.Text.Blank
import Offside.Text.Quoted

set_option autoImplicit false

namespace Offside

namespace Log

inductive Level
  | debug
  | warning
  | error
  deriving DecidableEq, Repr

structure Record where
  level : Level
  message : Text
  values : List (Text × Text) := []
  deriving DecidableEq, Repr

def Level.name : Level → Text
  | debug => "DEBUG"
  | warning => "WARN"
  | error => "ERROR"

def isSafe (s : Symbol) : Bool :=
  match s with
  | .stray _ => false
  | .scalar c =>
    let n := c.toNat
    if n < 0x80 then 0x20 < n && c != '=' && c != '"'
    else n != 0xFFFD && !isBlankCode n && isPrintableCode n

def value (t : Text) : Text := if !t.isEmpty && t.symbols.all isSafe then t else t.quoted

def list (ts : List Text) : Text := "[" ++ Text.join " " ts ++ "]"

namespace Record

def bare (r : Record) : Text :=
  Text.join " " (("msg=" ++ value r.message) :: r.values.map fun kv => kv.1 ++ "=" ++ value kv.2)

def line (r : Record) : Text := "level=" ++ r.level.name ++ " " ++ r.bare

end Record

end Log

/-- How much a log keeps. -/
inductive Verbosity
  | silent
  | brief
  | full
  deriving DecidableEq, Repr

namespace Verbosity

def keeps : Verbosity → Log.Level → Bool
  | silent, _ => false
  | brief, level => level != .debug
  | full, _ => true

def lines (v : Verbosity) (records : List Log.Record) : List Text :=
  (records.filter fun r => v.keeps r.level).map Log.Record.line

end Verbosity

end Offside
