/-
The configuration of a project.

A project may have a file with settings; the others keep their defaults. The file is YAML, but its
values have to be of the kind that JSON has too, and they have to satisfy the schema.
-/
import Offside.Config.Schema
import Offside.Fault

set_option autoImplicit false

namespace Offside

structure Config where
  /-- The unit that output is indented with; found in the source if empty. -/
  indentation : Text := []
  /-- The extension of generated files. -/
  extension : Text := ".d"
  /-- Do generated files start with a stamp? -/
  header : Bool := true
  /-- Are diagnostics colored? On a terminal they are unless this says otherwise. -/
  color : Option Bool := none
  /-- The oldest version of the command that may be used. -/
  requires : Text := []
  /-- The file that the settings come from. -/
  path : Text := []
  deriving DecidableEq, Repr

namespace Yaml.Value

mutual

/-- Why JSON cannot hold a value. Members are looked at in the order of their names. -/
def obstacle? : Yaml.Value → Option Text
  | .special name => some ("unsupported value: " ++ name)
  | .keyed => some "unsupported type: map[interface \x7b\x7d]interface \x7b\x7d"
  | .array items => obstacleIn? items
  | .object members =>
    ((memberObstacles members).mergeSort fun a b => Text.le a.1 b.1).head?.map Prod.snd
  | _ => none

def obstacleIn? : List Yaml.Value → Option Text
  | [] => none
  | v :: rest => v.obstacle?.or (obstacleIn? rest)

def memberObstacles : List (Text × Yaml.Value) → List (Text × Text)
  | [] => []
  | (name, v) :: rest =>
    match v.obstacle? with
    | some reason => (name, reason) :: memberObstacles rest
    | none => memberObstacles rest

end

end Yaml.Value

namespace Config

/-- Why a text is no configuration. -/
inductive Rejection
  | malformed (e : Yaml.Error)
  | unsupported (reason : Text)
  | invalid (first : Failure) (others : List Failure)
  deriving DecidableEq, Repr

namespace Rejection

def message : Rejection → Text
  | malformed e => e.message
  | unsupported reason => "json: " ++ reason
  | invalid first _ => first.message

def fault (path : Text) (r : Rejection) : Fault :=
  .badConfig .configValidation path (some (.plain r.message))

end Rejection

def ofMembers (path : Text) (members : List (Text × Yaml.Value)) : Config :=
  let text (s : Setting) (fallback : Text) : Text := match members.lookup s.name with
    | some (.text t) => t
    | _ => fallback
  let flag (s : Setting) : Option Bool := match members.lookup s.name with
    | some (.bool b) => some b
    | _ => none
  let base : Config := {}
  { indentation := text .indentation base.indentation
    extension := text .extension base.extension
    header := (flag .header).getD base.header
    color := flag .color
    requires := text .requires base.requires
    path }

/-- The configuration that a value stands for. Nothing at all gives the defaults. -/
def ofValue (path : Text) (v : Yaml.Value) : Except Rejection Config :=
  match v with
  | .null => .ok { path }
  | v =>
    match v.obstacle? with
    | some reason => .error (.unsupported reason)
    | none =>
      match Schema.failures v, v with
      | [], .object members => .ok (ofMembers path members)
      | [], _ => .ok { path }
      | first :: others, _ => .error (.invalid first others)

def parse (path text : Text) : Except Rejection Config :=
  match Yaml.read text with
  | .error e => .error (.malformed e)
  | .ok v => ofValue path v

def colors (c : Config) (terminal : Bool) : Bool := c.color.getD true && terminal

/-- Does the configuration ask for a newer version than the current one? A current version that is
none, as of a development build, is always new enough. -/
def isTooOld (c : Config) (current : Text) : Bool :=
  !c.requires.isEmpty && (Version.ofText? current).isSome &&
    Version.compareTexts current c.requires = .lt

def versionFault? (c : Config) (current : Text) : Option Fault :=
  if c.isTooOld current then
    let r : Report := {
      type := .versionMismatch
      message := "configuration requires delight " ++ c.requires ++ " or newer, this is " ++ current }
    some (.report (r.note "file" c.path))
  else none

end Config

end Offside
