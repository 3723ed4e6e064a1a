/-
Values of YAML documents.

The nodes of a document without what only concerns how it is written: tags are obeyed, aliases and
merged mappings are put in place, and scalars are what they stand for. The keys of a mapping have to
differ, and they have to be text for the mapping to be an object.
-/
import Offside.Yaml.Node
import Offside.Yaml.Resolution

set_option autoImplicit false

namespace Offside

namespace Yaml

inductive Value
  | null
  | bool (b : Bool)
  | number
  /-- A number that is not finite, by its name. -/
  | special (name : Text)
  | text (t : Text)
  | array (items : List Value)
  | object (members : List (Text × Value))
  /-- A mapping with keys that are not text. -/
  | keyed
  deriving Repr

namespace Value

def ofScalar : Scalar → Value
  | .null => null
  | .bool b => bool b
  | .integer _ => number
  | .decimal => number
  | .special name => special name
  | .moment t => text t
  | .text t => text t

def union (first second : List (Text × Value)) : List (Text × Value) :=
  first ++ second.filter fun m => !(first.map Prod.fst).contains m.1

end Value

namespace Node

def isMerge : Node → Bool
  | scalar tag plain text => text = "<<" && (tag = some "!!merge" || (tag.isNone && plain))
  | _ => false

def text? : Node → Option Text
  | scalar tag plain text =>
    match Scalar.resolve tag plain text with
    | .ok (.text t) => some t
    | _ => none
  | reference _ target => target.text?
  | _ => none

/-- The text of a node as a key: what it stands for, or else what is written. -/
def keyText : Node → Text
  | scalar tag plain text => ((scalar tag plain text).text?).getD text
  | reference _ target => target.keyText
  | _ => []

def sameKey : Node → Node → Bool
  | scalar _ _ a, scalar _ _ b => a = b
  | reference a _, reference b _ => a = b
  | sequence _, sequence _ => true
  | mapping _, mapping _ => true
  | _, _ => false

def distinctKeys : List Node → Bool
  | [] => true
  | k :: rest => !rest.any (sameKey k) && distinctKeys rest

def checkKey : Node → Except Error Unit
  | scalar tag plain text => do
    let _ ← Scalar.resolve tag plain text
  | reference _ target => target.checkKey
  | _ => .error .compoundKey

mutual

def value : Node → Except Error Value
  | scalar tag plain text => (Scalar.resolve tag plain text).map Value.ofScalar
  | sequence items => do return .array (← values items)
  | mapping pairs => do
    let keys := pairs.map Prod.fst
    let members ← do
      if !distinctKeys keys then throw .duplicateKey
      let own ← ownMembers pairs
      pure (Value.union own (← mergedMembers pairs))
    return if keys.all fun k => k.isMerge || k.text?.isSome then .object members else .keyed
  | reference _ target => target.value

def values : List Node → Except Error (List Value)
  | [] => return []
  | n :: rest => do return (← n.value) :: (← values rest)

def ownMembers : List (Node × Node) → Except Error (List (Text × Value))
  | [] => return []
  | (key, v) :: rest =>
    if key.isMerge then ownMembers rest
    else do
      key.checkKey
      let v ← v.value
      return (key.keyText, v) :: (← ownMembers rest)

def mergedMembers : List (Node × Node) → Except Error (List (Text × Value))
  | [] => return []
  | (key, source) :: rest => do
    if key.isMerge then return Value.union (← source.sourceMembers) (← mergedMembers rest)
    else mergedMembers rest

/-- The members of a mapping, or of a sequence of mappings, that are merged into another. -/
def sourceMembers : Node → Except Error (List (Text × Value))
  | mapping pairs => do
    if !distinctKeys (pairs.map Prod.fst) then throw .duplicateKey
    let own ← ownMembers pairs
    return Value.union own (← mergedMembers pairs)
  | reference _ (mapping pairs) => do
    let own ← ownMembers pairs
    return Value.union own (← mergedMembers pairs)
  | sequence items => allMembers items
  | _ => .error .mergeSource

def allMembers : List Node → Except Error (List (Text × Value))
  | [] => return []
  | mapping pairs :: rest => do
    if !distinctKeys (pairs.map Prod.fst) then throw .duplicateKey
    let own ← ownMembers pairs
    let first := Value.union own (← mergedMembers pairs)
    return Value.union first (← allMembers rest)
  | reference _ (mapping pairs) :: rest => do
    let own ← ownMembers pairs
    let first := Value.union own (← mergedMembers pairs)
    return Value.union first (← allMembers rest)
  | _ :: _ => .error .mergeSource

end

end Node

def read (t : Text) : Except Error Value := do
  match ← document? t with
  | some n => n.value
  | none => return .null

end Yaml

end Offside
