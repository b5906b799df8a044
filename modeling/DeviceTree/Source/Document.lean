import DeviceTree.Position

namespace DeviceTree

inductive Target where
  | label (name : Bytes)
  | path (path : Bytes)
  deriving DecidableEq, Repr

def Target.text : Target → Bytes
  | .label l => 0x26 :: l
  | .path p => utf8 "&\x7b" ++ p ++ utf8 "\x7d"

structure Ref where
  range : Range
  target : Target
  deriving DecidableEq, Repr

def Ref.text (r : Ref) : Bytes := r.target.text

-- An element of a cell list. An integer cell keeps its text; an expression that has no
-- value leaves the cell without one.
inductive Cell where
  | int (range : Range) (raw : Bytes) (value : Option Int64)
  | ref (ref : Ref)
  deriving DecidableEq, Repr

namespace Cell

def range : Cell → Range
  | .int range _ _ => range
  | .ref r => r.range

def value? : Cell → Option Int64
  | .int _ _ value => value
  | .ref _ => none

def text : Cell → Bytes
  | .int _ raw _ => raw
  | .ref r => r.text

def isRef : Cell → Bool
  | .int .. => false
  | .ref _ => true

end Cell

inductive Width where
  | w8 | w16 | w32 | w64
  deriving DecidableEq, Repr

namespace Width

def bits : Width → Nat
  | .w8 => 8
  | .w16 => 16
  | .w32 => 32
  | .w64 => 64

def ofBits? : Nat → Option Width
  | 8 => some .w8
  | 16 => some .w16
  | 32 => some .w32
  | 64 => some .w64
  | _ => none

end Width

structure CellArray where
  range : Range
  width : Width
  cells : List Cell
  deriving DecidableEq, Repr

namespace CellArray

def cellAt (a : CellArray) (p : Position) : Option Cell := a.cells.find? (·.range.contains p)

def values? (a : CellArray) : Option (List Int64) := a.cells.mapM Cell.value?

end CellArray

inductive Value where
  | string (range : Range) (value : Bytes)
  | bytes (range : Range) (bytes : Bytes)
  | array (array : CellArray)
  | ref (ref : Ref)
  deriving DecidableEq, Repr

namespace Value

def range : Value → Range
  | .string range _ => range
  | .bytes range _ => range
  | .array a => a.range
  | .ref r => r.range

def kindName : Value → Bytes
  | .string .. => utf8 "string"
  | .bytes .. => utf8 "bytes"
  | .array _ => utf8 "array"
  | .ref _ => utf8 "reference"

def string? : Value → Option Bytes
  | .string _ s => some s
  | _ => none

def array? : Value → Option CellArray
  | .array a => some a
  | _ => none

end Value

structure Label where
  name : Bytes
  range : Range
  deriving DecidableEq, Repr

structure Include where
  range : Range
  pathRange : Range
  path : Bytes
  system : Bool
  deriving DecidableEq, Repr

structure Directive where
  range : Range
  name : Bytes
  values : List Value
  deriving DecidableEq, Repr

inductive Victim where
  | node (name : Bytes)
  | target (ref : Ref)
  | property (name : Bytes)
  deriving DecidableEq, Repr

structure Delete where
  range : Range
  nameRange : Range
  victim : Victim
  deriving DecidableEq, Repr

def Delete.name (d : Delete) : Bytes :=
  match d.victim with
  | .node name => name
  | .target r => r.text
  | .property name => name

structure PropertyDecl where
  range : Range
  nameRange : Range
  labels : List Label
  name : Bytes
  values : List Value
  deriving DecidableEq, Repr

inductive Heading where
  | name (name : Bytes)
  | ref (ref : Ref)
  deriving DecidableEq, Repr

def Heading.ref? : Heading → Option Ref
  | .name _ => none
  | .ref r => some r

def Heading.nodeName : Heading → Bytes
  | .name n => n
  | .ref _ => []

structure NodeHead where
  range : Range
  nameRange : Range
  labels : List Label
  heading : Heading
  closed : Bool
  deriving DecidableEq, Repr

inductive Statement where
  | property (decl : PropertyDecl)
  | node (head : NodeHead) (body : List Statement)
  | delete (decl : Delete)
  deriving Repr

structure NodeDecl where
  head : NodeHead
  body : List Statement
  deriving Repr

namespace NodeDecl

def properties (n : NodeDecl) : List PropertyDecl :=
  n.body.filterMap fun
    | .property p => some p
    | _ => none

def children (n : NodeDecl) : List NodeDecl :=
  n.body.filterMap fun
    | .node head body => some ⟨head, body⟩
    | _ => none

end NodeDecl

def baseName (name : Bytes) : Bytes := Bytes.before 0x40 name
def unitAddress? (name : Bytes) : Option Bytes := (Bytes.cut 0x40 name).map Prod.snd

inductive Item where
  | include (decl : Include)
  | directive (decl : Directive)
  | delete (decl : Delete)
  | node (decl : NodeDecl)
  deriving Repr

def Item.range : Item → Range
  | .include i => i.range
  | .directive d => d.range
  | .delete d => d.range
  | .node n => n.head.range

end DeviceTree
