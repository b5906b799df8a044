import DeviceTree.Board
import DeviceTree.Tree.Reference

namespace DeviceTree
namespace Hover

def code (text : Bytes) : Bytes := utf8 "`" ++ text ++ utf8 "`"

def part (heading : String) (text : Bytes) : Bytes :=
  utf8 "\n\n**" ++ utf8 heading ++ utf8 "**: " ++ text

def paragraph (text : Bytes) : Bytes := utf8 "\n\n" ++ text

def hexCode (n : UInt64) : Bytes := code (utf8 "0x" ++ Bytes.hex n.toNat)

end Hover

open Hover

namespace Tree

def describeType (b : Binding) : Bytes :=
  part "Type" (code (if b.compatible = [] then utf8 "child binding" else b.compatible)) ++
    (if b.description = [] then [] else paragraph (Text.trimSpace b.description))

def registersText (r : Registers) : Bytes :=
  if r.known then
    r.blocks.flatMap fun b =>
      part "Register" (hexCode b.address ++ utf8 " size " ++ hexCode b.size)
  else part "Registers" (utf8 "unknown width")

def describeRegisters (t : Tree) (id : NodeId) : Except Panic Bytes :=
  if ((t.node id).property? (utf8 "reg")).isNone then .ok []
  else (t.registers id).map registersText

def describeNode (t : Tree) (id : NodeId) : Except Panic Bytes :=
  (t.describeRegisters id).map fun registers =>
    let n := t.node id
    utf8 "**Node**: " ++ code n.path ++
      (if n.labels = [] then [] else part "Labels" (code (Bytes.join (utf8 "`, `") n.labels))) ++
      ((t.type? id).map describeType).getD [] ++ registers ++
      (if n.fragments.length > 1 then
        paragraph (utf8 "Merged from " ++ Bytes.decimal n.fragments.length ++ utf8 " entries")
      else [])

def describeRule (r : PropertyRule) : Bytes :=
  part "Kind" (code ((r.kind.map Kind.name).getD [])) ++
    (if r.required then utf8 " (required)" else []) ++
    (if r.description = [] then [] else paragraph (Text.trimSpace r.description))

def describeFate (t : Tree) (id : NodeId) (p : Property) : Bytes :=
  match (t.node id).property? p.name with
  | none => paragraph (utf8 "Deleted by a later entry")
  | some winner =>
    if winner = p then []
    else paragraph (utf8 "Overridden at " ++
      code (t.fileOf winner ++ utf8 ":" ++ Bytes.decimal winner.range.start.line))

def describeProperty (t : Tree) (p : Property) : Bytes :=
  utf8 "**Property**: " ++ code p.name ++
    match t.nodeOf? p with
    | none => []
    | some id =>
      utf8 " of " ++ code (t.pathOf id) ++ ((t.rule? p).map describeRule).getD [] ++
        t.describeFate id p

def describeReference (t : Tree) (r : Ref) : Except Panic Bytes :=
  let head := utf8 "**Reference**: " ++ code r.text ++ utf8 " -> "
  match t.resolve r.target with
  | none => .ok (head ++ utf8 "Unresolved")
  | some id => (t.describeNode id).map (head ++ code (t.pathOf id) ++ utf8 "\n\n---\n" ++ ·)

def nameAt (names : List (List Bytes)) (index : Nat) : Bytes :=
  match names with
  | [only] => only.getD (index % only.length) []
  | lists => lists.flatten.getD index []

def nameOf (p : Property) (c : Cell) (names? : Option (List (List Bytes))) : Bytes :=
  match names?, p.cells.findIdx? (· = c) with
  | some names, some index => nameAt names index
  | _, _ => []

def cellName (t : Tree) (p : Property) (c : Cell) : Except Panic Bytes :=
  (t.cellNames? p).map (nameOf p c)

def describeCell (t : Tree) (p : Property) (c : Cell) : Except Panic Bytes :=
  (t.cellName p c).map fun name =>
    (if name = [] then utf8 "**Cell**" else utf8 "**Cell**: " ++ code name) ++ utf8 " = " ++
      match c.value? with
      | some v => hexCode v.toUInt64 ++ utf8 " (" ++ Bytes.signed v.toInt ++ utf8 ")"
      | none => code c.text ++ utf8 " (not evaluated)"

def describeDeleted (t : Tree) (f : Fragment) : Bytes :=
  utf8 "**Deleted**: " ++ code ((f.node.map t.pathOf).getD []) ++
    utf8 " is removed by a later /delete-node/"

def boardPart (board : Option Board) (id : NodeId) : Bytes :=
  match board with
  | some b => if id = Store.rootId then part "Board" b.summary else []
  | none => []

-- A block inside one for a missing node has no reference of its own to name.
def describeEntry (t : Tree) (board : Option Board) (f : Fragment) : Except Panic Bytes :=
  match f.node with
  | none =>
    .ok (utf8 "**Unresolved** " ++
      code ((f.decl.head.heading.ref?.map Ref.text).getD (utf8 "<nil>")))
  | some id => (t.describeNode id).map (· ++ boardPart board id)

def describeHit (t : Tree) (board : Option Board) : Hit → Except Panic Bytes
  | .none => .ok []
  | .entry f => if f.2.deleted then .ok (t.describeDeleted f.2) else t.describeEntry board f.2
  | .property f p => .ok (if f.2.deleted then t.describeDeleted f.2 else t.describeProperty p)
  | .value _ _ (.ref r) => t.describeReference r
  | .value _ p _ => .ok (t.describeProperty p)
  | .cell _ _ _ (.ref r) => t.describeReference r
  | .cell _ p _ c => t.describeCell p c

end Tree
end DeviceTree
