/-
Flags of the command line.

A flag is written `--name value` or `--name=value`; a switch needs no value. Flags with a letter may
be written `-l value` or `-lvalue` too, and switches with letters may share a dash. Flags and
arguments may come in any order, up to `--`, after which everything is an argument.
-/
import Offside.Text.EditDistance
import Offside.Text.Quoted

set_option autoImplicit false

namespace Offside

inductive Flag
  | config
  | debug
  | noColor
  | help
  | output
  | stdout
  | format
  deriving DecidableEq, Repr

namespace Flag

def name : Flag → Text
  | config => "config"
  | debug => "debug"
  | noColor => "no-color"
  | help => "help"
  | output => "output"
  | stdout => "stdout"
  | format => "format"

def letter? : Flag → Option UInt8
  | help => some 'h'.toUInt8
  | output => some 'o'.toUInt8
  | _ => none

def isSwitch : Flag → Bool
  | debug | noColor | help | stdout => true
  | config | output | format => false

def title (f : Flag) : Text :=
  match f.letter? with
  | some l => "-" ++ [l] ++ ", --" ++ f.name
  | none => "--" ++ f.name

end Flag

/-- What is wrong with a command line. -/
inductive UsageError
  | unknownCommand (name : Text) (similar : List Text)
  | unknownFlag (name : Text)
  | unknownLetter (letter : UInt8) (letters : Text)
  | badFlag (text : Text)
  | missingValue (text : Text)
  | missingLetterValue (letter : UInt8) (letters : Text)
  | badSwitch (value : Text) (flag : Flag)
  | noArguments (first command : Text)
  | tooFewArguments (least : Nat)
  | wrongArguments (wanted got : Nat)
  deriving DecidableEq, Repr

namespace UsageError

def quotedLetter (b : UInt8) : Text :=
  let inner : Text :=
    if b = '\''.toUInt8 then "\\'"
    else if b = '"'.toUInt8 then "\""
    else ((Text.quoted (String.utf8EncodeChar (Char.ofNat b.toNat))).drop 1).dropLast
  "'" ++ inner ++ "'"

def message : UsageError → Text
  | unknownCommand name similar =>
    let names : List Text := similar.map fun s => "\t" ++ s ++ "\n"
    let hint : Text :=
      if names.isEmpty then [] else "\n\nDid you mean this?\n" ++ names.flatten
    "unknown command " ++ name.quoted ++ " for \"delight\"" ++ hint
  | unknownFlag name => "unknown flag: --" ++ name
  | unknownLetter letter letters =>
    "unknown shorthand flag: " ++ quotedLetter letter ++ " in -" ++ letters
  | badFlag text => "bad flag syntax: " ++ text
  | missingValue text => "flag needs an argument: " ++ text
  | missingLetterValue letter letters =>
    "flag needs an argument: " ++ quotedLetter letter ++ " in -" ++ letters
  | badSwitch value flag =>
    "invalid argument " ++ value.quoted ++ " for " ++ flag.title.quoted ++
      " flag: strconv.ParseBool: parsing " ++ value.quoted ++ ": invalid syntax"
  | noArguments first command =>
    "unknown command " ++ first.quoted ++ " for " ++ Text.quoted ("delight " ++ command)
  | tooFewArguments least =>
    "requires at least " ++ Text.ofNat least ++ " arg(s), only received 0"
  | wrongArguments wanted got =>
    "accepts " ++ Text.ofNat wanted ++ " arg(s), received " ++ Text.ofNat got

end UsageError

/-- The value of a flag. -/
inductive Setter
  | value (flag : Flag) (t : Text)
  | switch (flag : Flag) (on : Bool)
  deriving DecidableEq, Repr

/-- A command line taken apart. -/
structure Arguments where
  setters : List Setter := []
  words : List Text := []
  deriving DecidableEq, Repr

namespace Arguments

def value (a : Arguments) (f : Flag) (fallback : Text) : Text :=
  a.setters.foldl (fun t s => match s with
    | .value g v => if g = f then v else t
    | .switch _ _ => t) fallback

def isOn (a : Arguments) (f : Flag) : Bool :=
  a.setters.foldl (fun b s => match s with
    | .switch g on => if g = f then on else b
    | .value _ _ => b) false

def withSetter (s : Setter) (a : Arguments) : Arguments := { a with setters := s :: a.setters }

def withWord (w : Text) (a : Arguments) : Arguments := { a with words := w :: a.words }

end Arguments

namespace Flag

def switchValue? (t : Text) : Option Bool :=
  if (["1", "t", "T", "true", "TRUE", "True"] : List Text).contains t then some true
  else if (["0", "f", "F", "false", "FALSE", "False"] : List Text).contains t then some false
  else none

def set (f : Flag) (t : Text) : Except UsageError Setter :=
  if f.isSwitch then
    match switchValue? t with
    | some on => .ok (.switch f on)
    | none => .error (.badSwitch t f)
  else .ok (.value f t)

def splitName (t : Text) : Text × Option Text :=
  let name := t.takeWhile (· != '='.toUInt8)
  (name, if name.length < t.length then some (t.drop (name.length + 1)) else none)

/-- What one argument says about flags. -/
inductive Reading
  | done (setters : List Setter)
  /-- The flag takes the next argument as its value; without one the error holds. -/
  | needsValue (setters : List Setter) (flag : Flag) (otherwise : UsageError)

def readName (known : List Flag) (arg : Text) : Except UsageError Reading :=
  let body := arg.drop 2
  let (name, value) := splitName body
  if body.head? = some '-'.toUInt8 ∨ body.head? = some '='.toUInt8 then .error (.badFlag arg)
  else match known.find? (·.name = name) with
    | none => .error (.unknownFlag name)
    | some f => match value with
      | some v => (f.set v).map fun s => .done [s]
      | none =>
        if f.isSwitch then .ok (.done [.switch f true])
        else .ok (.needsValue [] f (.missingValue arg))

def readLetters (known : List Flag) : Text → Except UsageError Reading
  | [] => .ok (.done [])
  | l :: rest =>
    match known.find? (·.letter? = some l) with
    | none => .error (.unknownLetter l (l :: rest))
    | some f =>
      if rest.head? = some '='.toUInt8 ∧ 1 < rest.length then
        (f.set rest.tail).map fun s => .done [s]
      else if f.isSwitch then do
        match ← readLetters known rest with
        | .done setters => .ok (.done (.switch f true :: setters))
        | .needsValue setters g otherwise => .ok (.needsValue (.switch f true :: setters) g otherwise)
      else if rest.isEmpty then .ok (.needsValue [] f (.missingLetterValue l [l]))
      else (f.set rest).map fun s => .done [s]

def isFlag (arg : Text) : Bool := arg.head? = some '-'.toUInt8 && 1 < arg.length

/-- Takes arguments apart. `pending` is the flag that the next argument is the value of. -/
def readAll (known : List Flag) (pending : Option (Flag × UsageError)) :
    List Text → Except UsageError Arguments
  | [] => match pending with
    | some (_, e) => .error e
    | none => .ok {}
  | arg :: rest =>
    match pending with
    | some (f, _) => do
      let s ← f.set arg
      let a ← readAll known none rest
      .ok (a.withSetter s)
    | none =>
      if !isFlag arg then (readAll known none rest).map (·.withWord arg)
      else if arg = "--" then .ok { words := rest }
      else do
        let reading ← if (Text.after? "--" arg).isSome then readName known arg
          else readLetters known arg.tail
        match reading with
        | .done setters =>
          let a ← readAll known none rest
          .ok { a with setters := setters ++ a.setters }
        | .needsValue setters f e =>
          let a ← readAll known (some (f, e)) rest
          .ok { a with setters := setters ++ a.setters }

end Flag

end Offside
