/-
The command line.

    delight [flags] translate|check|watch|tokens|version [flags] [arguments]

The command is the first word that is neither a flag nor the value of one. At that point only the
flags that all commands share are known; any other flag that is not written with an equals sign is
taken to have a value.
-/
import Offside.Command.Flag

set_option autoImplicit false

namespace Offside

inductive CommandName
  | translate
  | check
  | watch
  | tokens
  | version
  | help
  | completion
  deriving DecidableEq, Repr

/-- What a command line asks for. -/
inductive Action
  /-- Translates files, into a given output if that is not empty. -/
  | translate (files : List Text) (output : Text) (toStdout : Bool)
  | check (files : List Text)
  | watch (paths : List Text)
  | tokens (file : Text) (format : Text)
  | version
  | help
  deriving DecidableEq, Repr

/-- The flags that all commands share. -/
structure Options where
  config : Text := []
  debug : Bool := false
  noColor : Bool := false
  deriving DecidableEq, Repr

structure CommandLine where
  options : Options
  action : Action
  deriving DecidableEq, Repr

namespace CommandName

def all : List CommandName := [translate, check, watch, tokens, version, help, completion]

def name : CommandName → Text
  | translate => "translate"
  | check => "check"
  | watch => "watch"
  | tokens => "tokens"
  | version => "version"
  | help => "help"
  | completion => "completion"

def ofText? (t : Text) : Option CommandName := all.find? (·.name = t)

def ownFlags : CommandName → List Flag
  | translate => [.output, .stdout]
  | tokens => [.format]
  | _ => []

def maxDistance : Nat := 2

def lowered (t : Text) : Text := t.map fun b => if Text.isUpper b then b + 32 else b

def similar (word : Text) : List Text :=
  (all.map name).filter fun n =>
    editDistance (lowered word) n ≤ maxDistance || (lowered word).isPrefixOf n

end CommandName

namespace CommandLine

def shared : List Flag := [.config, .debug, .noColor]

/-- Is the next argument the value of this one, as far as is known before the command is? -/
def takesNext (arg : Text) : Bool :=
  if arg.contains '='.toUInt8 then false
  else match Text.after? "--" arg with
    | some name => !((shared.find? (·.name = name)).map Flag.isSwitch).getD false
    | none => Flag.isFlag arg && arg.length == 2

def firstWord? (skip : Bool) : List Text → Option (Text × List Text)
  | [] => none
  | arg :: rest =>
    let later (skip : Bool) := (firstWord? skip rest).map fun (w, rest) => (w, arg :: rest)
    if skip then later false
    else if arg = "--" then none
    else if arg.isEmpty || arg.head? = some '-'.toUInt8 then later (takesNext arg)
    else some (arg, rest)

def optionsOf (a : Arguments) : Options :=
  { config := a.value .config [], debug := a.isOn .debug, noColor := a.isOn .noColor }

def actionOf (c : CommandName) (a : Arguments) : Except UsageError Action :=
  match c with
  | .translate =>
    if a.words.isEmpty then .error (.tooFewArguments 1)
    else .ok (.translate a.words (a.value .output []) (a.isOn .stdout))
  | .check => if a.words.isEmpty then .error (.tooFewArguments 1) else .ok (.check a.words)
  | .watch => .ok (.watch (if a.words.isEmpty then ["."] else a.words))
  | .tokens => match a.words with
    | [file] => .ok (.tokens file (a.value .format "text"))
    | words => .error (.wrongArguments 1 words.length)
  | .version => match a.words with
    | [] => .ok .version
    | first :: _ => .error (.noArguments first c.name)
  | .help => .ok .help
  | .completion => .ok .help

def ofCommand (c : CommandName) (args : List Text) : Except UsageError CommandLine := do
  let a ← Flag.readAll (.help :: shared ++ c.ownFlags) none args
  let action ← if a.isOn .help then .ok .help else actionOf c a
  return { options := optionsOf a, action }

def parse (args : List Text) : Except UsageError CommandLine :=
  match firstWord? false args with
  | none => ofCommand .help args
  | some (word, rest) =>
    match CommandName.ofText? word with
    | some c => ofCommand c rest
    | none => .error (.unknownCommand word (CommandName.similar word))

end CommandLine

end Offside
