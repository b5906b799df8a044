import DeviceTree.Binding.Basic
import DeviceTree.Yaml.Parser

namespace DeviceTree
namespace Binding

abbrev Entries := List (Bytes × Yaml)

def optional (entries : Entries) (key : Bytes) (read : Yaml → Option α) : Option (Option α) :=
  match entries.lookup key with
  | none => some none
  | some v => (read v).map some

def readString : Yaml → Option Bytes
  | .string s => some s
  | _ => none

def readBool : Yaml → Option Bool
  | .bool b => some b
  | _ => none

def readStrings : Yaml → Option (List Bytes)
  | .seq items => items.mapM readString
  | _ => none

def isInt : Yaml → Bool
  | .int _ => true
  | _ => false

def isStringOrInt : Yaml → Bool
  | .string _ | .int _ => true
  | _ => false

def readChoices : Yaml → Option (List Yaml)
  | .seq items => if items.all isStringOrInt then some items else none
  | _ => none

def readConstant : Yaml → Option Yaml
  | .seq items => if items.all isInt then some (.seq items) else none
  | v => if isStringOrInt v then some v else none

def readDefault : Yaml → Option Yaml := some

def readKind : Yaml → Option Kind
  | .string s => Kind.ofName? s
  | _ => none

def readProperty (name : Bytes) : Yaml → Option PropertyRule
  | .null => some ⟨name, none, false, false, none, none, none, [], []⟩
  | .map entries => do
    let kind ← optional entries (utf8 "type") readKind
    let required ← optional entries (utf8 "required") readBool
    let deprecated ← optional entries (utf8 "deprecated") readBool
    let choices ← optional entries (utf8 "enum") readChoices
    let constant ← optional entries (utf8 "const") readConstant
    let default ← optional entries (utf8 "default") readDefault
    let description ← optional entries (utf8 "description") readString
    let space ← optional entries (utf8 "specifier-space") readString
    some ⟨name, kind, required.getD false, deprecated.getD false, choices, constant, default,
      description.getD [], space.getD []⟩
  | _ => none

def readProperties : Yaml → Option (List (Bytes × PropertyRule))
  | .map entries => entries.mapM fun (name, v) => (readProperty name v).map (name, ·)
  | _ => none

def readInclude : Yaml → Option Bytes
  | .string s => some s
  | .map entries => (entries.lookup (utf8 "name")).bind readString
  | _ => none

def readIncludes : Yaml → Option (List Bytes)
  | .string s => some [s]
  | .seq items => items.mapM readInclude
  | _ => none

def readBuses : Yaml → Option (List Bytes)
  | .string s => some [s]
  | v => readStrings v

def readCells (entries : Entries) : Option (List (Bytes × List Bytes)) :=
  let named := entries.filter fun (key, _) => Bytes.endsWith key (utf8 "-cells")
  let read := named.mapM fun (key, v) =>
    (readStrings v).map fun names => (Bytes.trimTail (utf8 "-cells") key, names)
  read.map (List.filter fun (space, _) => space != [])

def ofYaml (file : Bytes) : (fuel : Nat) → Yaml → Option Binding
  | 0, _ => none
  | fuel + 1, .map entries => do
    let description ← optional entries (utf8 "description") readString
    let compatible ← optional entries (utf8 "compatible") readString
    let includes ← optional entries (utf8 "include") readIncludes
    let buses ← optional entries (utf8 "bus") readBuses
    let onBus ← optional entries (utf8 "on-bus") readString
    let properties ← optional entries (utf8 "properties") readProperties
    let cells ← readCells entries
    let child ← optional entries (utf8 "child-binding") (ofYaml file fuel)
    some { file, compatible := compatible.getD [], description := description.getD [],
           buses := buses.getD [], onBus := onBus.getD [], properties := properties.getD [],
           cells, includes := includes.getD [], child }
  | _, _ => none

inductive Rejection where
  | unreadable (reason : Bytes)
  | malformed
  | invalid
  deriving DecidableEq, Repr

def Rejection.message : Rejection → Bytes
  | .unreadable reason => utf8 "reading binding: " ++ reason
  | .malformed => utf8 "parsing binding: malformed document"
  | .invalid => utf8 "binding does not have the form of a binding"

def ofText (file text : Bytes) : Except Rejection Binding :=
  let fuel := text.length + 1
  match Yaml.parse text with
  | .malformed => .error .malformed
  | .absent => (ofYaml file fuel (.map [])).elim (.error .invalid) .ok
  | .document node more =>
    if more || node.repeats then .error .invalid
    else (ofYaml file fuel node.value).elim (.error .invalid) .ok

end Binding
end DeviceTree
