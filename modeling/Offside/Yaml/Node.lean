/-
Nodes of a YAML document.

A document is a tree of scalars, sequences and mappings, read from the tokens of its text. Only the
first document of a text is read. An alias keeps the node it stands for, which has to come before
it.
-/
import Offside.Yaml.Token

set_option autoImplicit false

namespace Offside

namespace Yaml

inductive Node
  | scalar (tag : Option Tag) (plain : Bool) (text : Text)
  | sequence (items : List Node)
  | mapping (pairs : List (Node × Node))
  | reference (name : Text) (target : Node)
  deriving Repr

namespace Node

def empty : Node := scalar none true []

def tagged (tag : Option Tag) : Node → Node
  | scalar _ plain text => scalar (if tag = some .unspecific then none else tag) plain text
  | n => n

end Node

/-! ## Reading nodes -/

/-- The tokens that remain, the handles of tags, and the nodes that aliases may stand for. -/
structure Source where
  tokens : List Token
  handles : Handles := .default
  anchors : List (Text × Node) := []

abbrev Reader := EStateM Error Source

namespace Reader

def peek? : Reader (Option Token) := return (← get).tokens.head?

def skip : Reader Unit := modify fun s => { s with tokens := s.tokens.tail }

def accept (t : Token) : Reader Bool := do
  if (← peek?) = some t then
    skip
    return true
  else return false

def nextIn (ts : List Token) : Reader Bool := do
  match ← peek? with
  | some t => return ts.contains t
  | none => return false

/-- Where the text stops short, something that was begun is missing its end. -/
def expect (t : Token) : Reader Unit := do
  if !(← accept t) then throw .unexpected

/-- What may stand before a node: an anchor and a tag, each at most once. -/
structure Properties where
  anchor : Option Text := none
  tag : Option Tag := none

def Properties.isEmpty (p : Properties) : Bool := p.anchor.isNone && p.tag.isNone

def tagOf (name : TagName) : Reader Tag := do
  match name.tag? (← get).handles with
  | some tag => return tag
  | none => throw .handle

/-- Reads at most `n` properties. A name that is given to a node stands for nothing until the node
is complete, whatever it stood for before. -/
def properties (p : Properties) : Nat → Reader Properties
  | 0 => return p
  | n + 1 => do
    match ← peek? with
    | some (.anchor name) =>
      if p.anchor.isSome then return p
      skip
      modify fun s => { s with anchors := s.anchors.filter fun a => a.1 ≠ name }
      properties { p with anchor := some name } n
    | some (.tag name) =>
      if p.tag.isSome then return p
      skip
      properties { p with tag := some (← tagOf name) } n
    | _ => return p

def anchored (p : Properties) (n : Node) : Reader Node := do
  if let some name := p.anchor then
    modify fun s => { s with anchors := (name, n) :: s.anchors }
  return n

mutual

/-- A node with what stands before it. Block collections are only read where they may stand; a
sequence as the value of a key need not be indented. -/
def node (block indentless : Bool) : Nat → Reader Node
  | 0 => throw .unexpected
  | budget + 1 => do
    if let some (.reference name) ← peek? then
      skip
      match (← get).anchors.lookup name with
      | some target => return .reference name target
      | none => throw .unknownAlias
    let p ← properties {} 2
    let n ← match ← peek? with
      | some (.scalar text plain) => skip; pure (Node.scalar none plain text)
      | some .flowSequence => skip; pure (.sequence (← flowItems true budget))
      | some .flowMapping => skip; pure (.mapping (← flowPairs true budget))
      | some .entry =>
        if indentless then pure (.sequence (← indentlessItems budget)) else content p
      | some .blockSequence =>
        if block then do skip; pure (.sequence (← blockItems budget)) else content p
      | some .blockMapping =>
        if block then do skip; pure (.mapping (← blockPairs budget)) else content p
      | _ => content p
    anchored p (n.tagged p.tag)
where
  /-- No content: fine after an anchor or a tag. -/
  content (p : Properties) : Reader Node :=
    if p.isEmpty then throw .unexpected else return .empty

def nodeUnless (ends : List Token) (block indentless : Bool) : Nat → Reader Node
  | 0 => throw .unexpected
  | budget + 1 => do
    if ← nextIn ends then return .empty else node block indentless budget

def blockItems : Nat → Reader (List Node)
  | 0 => throw .unexpected
  | budget + 1 => do
    if ← accept .entry then
      let item ← nodeUnless [.entry, .blockEnd] true false budget
      return item :: (← blockItems budget)
    expect .blockEnd
    return []

def indentlessItems : Nat → Reader (List Node)
  | 0 => throw .unexpected
  | budget + 1 => do
    if ← accept .entry then
      let item ← nodeUnless [.entry, .key, .value, .blockEnd] true false budget
      return item :: (← indentlessItems budget)
    return []

def blockPairs : Nat → Reader (List (Node × Node))
  | 0 => throw .unexpected
  | budget + 1 => do
    if ← accept .blockEnd then return []
    expect .key
    let key ← nodeUnless [.key, .value, .blockEnd] true true budget
    let value ← if ← accept .value then nodeUnless [.key, .value, .blockEnd] true true budget
      else pure .empty
    return (key, value) :: (← blockPairs budget)

/-- The items of a flow sequence. A pair written as an item is a mapping of its own. -/
def flowItems (first : Bool) : Nat → Reader (List Node)
  | 0 => throw .unexpected
  | budget + 1 => do
    if ← accept .flowSequenceEnd then return []
    if !first then
      expect .comma
      if ← accept .flowSequenceEnd then return []
    let item ← if ← accept .key then do
        let key ← nodeUnless [.value, .comma, .flowSequenceEnd] false false budget
        let value ← if ← accept .value then
            nodeUnless [.comma, .flowSequenceEnd] false false budget
          else pure .empty
        pure (.mapping [(key, value)])
      else node false false budget
    return item :: (← flowItems false budget)

def flowPairs (first : Bool) : Nat → Reader (List (Node × Node))
  | 0 => throw .unexpected
  | budget + 1 => do
    if ← accept .flowMappingEnd then return []
    if !first then
      expect .comma
      if ← accept .flowMappingEnd then return []
    let pair ← if ← accept .key then do
        let key ← nodeUnless [.value, .comma, .flowMappingEnd] false false budget
        let value ← if ← accept .value then
            nodeUnless [.comma, .flowMappingEnd] false false budget
          else pure .empty
        pure (key, value)
      else do pure (← node false false budget, Node.empty)
    return pair :: (← flowPairs false budget)

end

/-- What the directives before a document say. -/
structure Directives where
  versioned : Bool := false
  handles : Handles := []

def Directives.isEmpty (d : Directives) : Bool := !d.versioned && d.handles.isEmpty

/-- Reads at most `n` directives. Nothing may be said twice, and the version has to be 1.1. -/
def directives (d : Directives) : Nat → Reader Directives
  | 0 => return d
  | n + 1 => do
    match ← peek? with
    | some (.version major minor) =>
      if d.versioned || major ≠ 1 || minor ≠ 1 then throw .version
      skip
      directives { d with versioned := true } n
    | some (.handle handle start) =>
      if (d.handles.lookup handle).isSome then throw .directive
      skip
      directives { d with handles := (handle, start) :: d.handles } n
    | _ => return d

/-- The first document; nothing when there is none. Directives have to be followed by the line that
starts the document. -/
def document (budget : Nat) : Reader (Option Node) := do
  let d ← directives {} budget
  if !d.isEmpty && !(← nextIn [.documentStart]) then throw .directive
  modify fun s => { s with handles := d.handles ++ .default }
  if (← peek?).isNone then return none
  if ← accept .documentStart then
    match ← peek? with
    | none => return some .empty
    | some (.version ..) | some (.handle ..) | some .documentStart | some .documentEnd =>
      return some .empty
    | _ => some <$> node true false budget
  else some <$> node true false budget

end Reader

/-- How many tokens beyond the end of a document are read before it is taken to be complete. -/
def lookahead : Nat := 3

def document? (t : Text) : Except Error (Option Node) := do
  let (tokens, error) := tokens (← marks t)
  match Reader.document (4 * tokens.length + 4) { tokens } with
  | .ok n rest =>
    match error with
    | some e => if rest.tokens.length < lookahead then throw e else return n
    | none => return n
  | .error e _ => throw (error.getD e)

end Yaml

end Offside
