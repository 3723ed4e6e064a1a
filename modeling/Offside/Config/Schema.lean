/-
The settings that a configuration may hold.

A configuration is a mapping from the names of settings to their values. Each setting has a type,
and text has to be of a certain form. A value is checked as a whole: all that is wrong with it is
reported, each failure with the place in the value and the rule that was broken.
-/
import Offside.Text.Quoted
import Offside.Version
import Offside.Yaml.Value

set_option autoImplicit false

namespace Offside

namespace Text

def withoutQuoteEscapes : Text → Text
  | a :: b :: rest =>
    if a = '\\'.toUInt8 ∧ b = '"'.toUInt8 then b :: withoutQuoteEscapes rest
    else a :: withoutQuoteEscapes (b :: rest)
  | t => t

/-- The text in single quotes, with the escapes of `quoted` but for the quotes. -/
def singleQuoted (t : Text) : Text :=
  let escaped := (withoutQuoteEscapes t.quoted).flatMap fun b =>
    if b = '\''.toUInt8 then ['\\'.toUInt8, b] else [b]
  "'" ++ escaped.tail.dropLast ++ "'"

end Text

inductive Setting
  | color
  | extension
  | header
  | indentation
  | requires
  deriving DecidableEq, Repr

/-- A rule that a value breaks. -/
structure Failure where
  /-- Where the value stands in the configuration. -/
  location : Text
  /-- Where the rule stands in the schema. -/
  rule : Text
  reason : Text
  deriving DecidableEq, Repr

namespace Failure

def schema : Text := "schema://delight-config.json"

def message (f : Failure) : Text :=
  "jsonschema: " ++ f.location.singleQuoted ++ " does not validate with " ++ schema ++ "#" ++ f.rule ++
    ": " ++ f.reason

end Failure

def Yaml.Value.typeName : Yaml.Value → Text
  | .null => "null"
  | .bool _ => "boolean"
  | .number => "number"
  | .special _ => "number"
  | .text _ => "string"
  | .array _ => "array"
  | .object _ => "object"
  | .keyed => "object"

namespace Setting

def all : List Setting := [color, extension, header, indentation, requires]

def name : Setting → Text
  | color => "color"
  | extension => "extension"
  | header => "header"
  | indentation => "indentation"
  | requires => "requires"

def typeName : Setting → Text
  | color | header => "boolean"
  | extension | indentation | requires => "string"

def isIndentation (t : Text) : Bool :=
  (!t.isEmpty && t.all (· == ' '.toUInt8)) || t = "\t"

def isExtension (t : Text) : Bool :=
  match t with
  | dot :: rest =>
    dot == '.'.toUInt8 && !rest.isEmpty && rest.all fun b => Text.isLetter b || Text.isDigit b
  | [] => false

def brokenForm? : Setting → Text → Option (Text × Text)
  | extension, t =>
    if isExtension t then none
    else some ("pattern", "does not match pattern " ++ Text.singleQuoted "^\\.[A-Za-z0-9]+$")
  | indentation, t =>
    if isIndentation t then none
    else some ("pattern", "does not match pattern " ++ Text.singleQuoted "^( +|\t)$")
  | requires, t =>
    if (Version.ofText? t).isSome then none
    else some ("format", t.singleQuoted ++ " is not valid " ++ Text.singleQuoted "semver")
  | _, _ => none

def expected (wanted got : Text) : Text := "expected " ++ wanted ++ ", but got " ++ got

def check (s : Setting) (v : Yaml.Value) : Option Failure :=
  let failure (broken : Text × Text) : Failure :=
    ⟨"/" ++ s.name, "/properties/" ++ s.name ++ "/" ++ broken.1, broken.2⟩
  if v.typeName ≠ s.typeName then some (failure ("type", expected s.typeName v.typeName))
  else match v with
    | .text t => (s.brokenForm? t).map failure
    | _ => none

end Setting

namespace Schema

def unknownNames (members : List (Text × Yaml.Value)) : List Text :=
  ((members.map Prod.fst).filter fun n => !(Setting.all.map Setting.name).contains n).mergeSort
    Text.le

def failures : Yaml.Value → List Failure
  | .object members =>
    let unknown := unknownNames members
    let extra : List Failure :=
      if unknown.isEmpty then []
      else [⟨[], "/additionalProperties", "additionalProperties " ++
        Text.join ", " (unknown.map Text.singleQuoted) ++ " not allowed"⟩]
    extra ++ Setting.all.filterMap fun s => (members.lookup s.name).bind s.check
  | v => [⟨[], "/type", Setting.expected "object" v.typeName⟩]

end Schema

end Offside
