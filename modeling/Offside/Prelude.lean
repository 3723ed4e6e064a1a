/-
The prelude: definitions of helper functions in D.

Delight has a few constructs without a direct counterpart in D. They become calls of helpers, and a
program that uses a helper carries its definition, once, in front of the translated text.
-/
import Offside.Text.Quoted

set_option autoImplicit false

namespace Offside

/-- The helpers a translated program may need. -/
inductive Helper
  | print
  | contains
  | range
  deriving DecidableEq, Repr

namespace Helper

def all : List Helper := [contains, print, range]

def name : Helper → Text
  | print => "print"
  | contains => "contains"
  | range => "range"

def ofName? (t : Text) : Option Helper := all.find? (·.name = t)

def lines : Helper → List (Nat × Text)
  | print =>
    [(0, "import std.stdio : write, writeln;"),
     (0, ""),
     (0, "void print(T...)(T args) \x7b"),
     (1, "foreach (i, arg; args) \x7b"),
     (2, "if (i > 0) \x7b"),
     (3, "write(\" \");"),
     (2, "\x7d"),
     (2, "write(arg);"),
     (1, "\x7d"),
     (1, "writeln();"),
     (0, "\x7d")]
  | contains =>
    [(0, "import std.algorithm.searching : canFind;"),
     (0, ""),
     (0, "bool contains(H, N)(H haystack, N needle) \x7b"),
     (1, "static if (__traits(isAssociativeArray, H)) \x7b"),
     (2, "return (needle in haystack) !is null;"),
     (1, "\x7d else \x7b"),
     (2, "return haystack.canFind(needle);"),
     (1, "\x7d"),
     (0, "\x7d")]
  | range =>
    [(0, "import std.range : iota;"),
     (0, ""),
     (0, "auto range(A, B)(A start, B stop) \x7b"),
     (1, "return iota(start, stop);"),
     (0, "\x7d")]

def definition (unit : Text) (h : Helper) : Text :=
  h.lines.flatMap fun line => Text.repeated line.1 unit ++ line.2 ++ "\n"

end Helper

/-- The helpers in use, in order of first use and each of them once. -/
structure Prelude where
  used : List Helper := []
  deriving DecidableEq, Repr

namespace Prelude

def require (p : Prelude) (h : Helper) : Prelude :=
  if h ∈ p.used then p else { used := p.used ++ [h] }

def contains (p : Prelude) (h : Helper) : Bool := decide (h ∈ p.used)

/-- The definitions, with an empty line after each of them; empty if there are none. -/
def text (unit : Text) (p : Prelude) : Text :=
  if p.used.isEmpty then [] else Text.join "\n" (p.used.map (Helper.definition unit)) ++ "\n"

def requireName (p : Prelude) (name : Text) : Except Text Prelude :=
  match Helper.ofName? name with
  | some h => .ok (p.require h)
  | none => .error ("unknown runtime helper " ++ name.quoted)

def containsName (p : Prelude) (name : Text) : Bool :=
  ((Helper.ofName? name).map p.contains).getD false

end Prelude

/-- What requests for helpers by name leave behind. -/
structure Registry where
  unit : Text
  /-- For each known name, whether its definition is written. -/
  emitted : List (Text × Bool)
  /-- The names whose definitions are written, in order. -/
  order : List Text := []
  /-- The definitions, with an empty line between two of them. -/
  buffer : Text := []
  deriving DecidableEq, Repr

namespace Registry

/-- Every helper is known and none is written. -/
def new (unit : Text) : Registry :=
  { unit := unit, emitted := Helper.all.map fun h => (h.name, false) }

/-- The table with the entry of a name set. -/
def mark (name : Text) : List (Text × Bool) → List (Text × Bool)
  | [] => [(name, true)]
  | entry :: entries =>
    if entry.1 = name then (name, true) :: entries else entry :: mark name entries

def write (text : Text) : EStateM Text Registry Unit :=
  modify fun r => { r with buffer := r.buffer ++ text }

/-- The first request for a known name writes its definition, and later ones do nothing. -/
def require (name : Text) : EStateM Text Registry Unit := do
  match (← get).emitted.lookup name with
  | none => throw ("unknown runtime helper " ++ name.quoted)
  | some true => pure ()
  | some false =>
    match Helper.ofName? name with
    | none =>
      throw ("rendering runtime helper " ++ name.quoted ++ ": template: no template " ++ name.quoted
        ++ " associated with template \"prelude\"")
    | some h =>
      unless (← get).buffer.isEmpty do write "\n"
      write (h.definition (← get).unit)
      modify fun r => { r with emitted := mark name r.emitted, order := r.order ++ [name] }

def isEmitted (r : Registry) (name : Text) : Bool := (r.emitted.lookup name).getD false

/-- The definitions, with an empty line after the last one too. -/
def text (r : Registry) : Text := if r.buffer.isEmpty then [] else r.buffer ++ "\n"

end Registry

end Offside
