import DeviceTree.Bytes
import DeviceTree.Yaml.Basic

namespace DeviceTree

inductive Kind where
  | string | stringArray | int | array | bytes
  | phandle | phandleArray | phandles
  | boolean | compound | path
  deriving DecidableEq, Repr

namespace Kind

def name : Kind → Bytes
  | .string => utf8 "string"
  | .stringArray => utf8 "string-array"
  | .int => utf8 "int"
  | .array => utf8 "array"
  | .bytes => utf8 "uint8-array"
  | .phandle => utf8 "phandle"
  | .phandleArray => utf8 "phandle-array"
  | .phandles => utf8 "phandles"
  | .boolean => utf8 "boolean"
  | .compound => utf8 "compound"
  | .path => utf8 "path"

def all : List Kind :=
  [.string, .stringArray, .int, .array, .bytes, .phandle, .phandleArray, .phandles, .boolean,
    .compound, .path]

def aliases : List (Bytes × Kind) :=
  [(utf8 "integer", .int), (utf8 "integer-array", .array), (utf8 "byte-array", .bytes),
    (utf8 "reference", .phandle), (utf8 "reference-array", .phandleArray)]

def ofName? (spelling : Bytes) : Option Kind :=
  match aliases.lookup spelling with
  | some kind => some kind
  | none => all.find? (·.name = spelling)

def canonicalName (spelling : Bytes) : Bytes := ((ofName? spelling).map name).getD spelling

end Kind

structure PropertyRule where
  name : Bytes
  kind : Option Kind
  required : Bool
  deprecated : Bool
  choices : Option (List Yaml)
  constant : Option Yaml
  default : Option Yaml
  description : Bytes
  space : Bytes

structure Binding where
  file : Bytes
  compatible : Bytes
  description : Bytes
  buses : List Bytes
  onBus : Bytes
  properties : List (Bytes × PropertyRule)
  cells : List (Bytes × List Bytes)
  includes : List Bytes
  child : Option Binding

namespace Binding

def property? (b : Binding) (name : Bytes) : Option PropertyRule := b.properties.lookup name

def specifierCells? (b : Binding) (space : Bytes) : Option (List Bytes) := b.cells.lookup space

def isBus (b : Binding) (bus : Bytes) : Bool := b.buses.elem bus

end Binding

def specifierSpace (property : Bytes) (rule : Option PropertyRule) : Bytes :=
  match rule with
  | some r => if r.space = [] then ofName else r.space
  | none => ofName
where
  ofName : Bytes :=
    if property = utf8 "gpios" || Bytes.endsWith property (utf8 "-gpios") then utf8 "gpio"
    else if property = utf8 "interrupts" || property = utf8 "interrupts-extended" then
      utf8 "interrupt"
    else if property = utf8 "mboxes" then utf8 "mbox"
    else Bytes.trimTail (utf8 "s") property

def cellNames? (b : Option Binding) (property : Bytes) : Option (List Bytes) :=
  b.bind (·.specifierCells? (specifierSpace property none))

end DeviceTree
