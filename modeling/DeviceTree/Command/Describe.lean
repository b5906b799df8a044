import DeviceTree.Board
import DeviceTree.Tree.Flash
import DeviceTree.Tree.Pins
import DeviceTree.Tree.Printer

namespace DeviceTree.Tree

def summaryLine (heading : String) (text : Bytes) : Bytes :=
  let heading := utf8 heading ++ utf8 ":"
  heading ++ List.replicate (10 - heading.length) 0x20 ++ text ++ utf8 "\n"

def hexText (n : UInt64) : Bytes := utf8 "0x" ++ Bytes.hex n.toNat

def spanText (first last : UInt64) : Bytes := hexText first ++ utf8 "-" ++ hexText last

def registersLines (r : Registers) : Bytes :=
  (if r.known then [] else summaryLine "reg" (utf8 "unknown width")) ++
    r.blocks.flatMap fun b => summaryLine "reg" (spanText b.address b.stop)

def registerLines (t : Tree) (id : NodeId) : Except Panic Bytes :=
  if ((t.node id).property? (utf8 "reg")).isNone then .ok []
  else (t.registers id).map registersLines

def interruptLine (t : Tree) (id : NodeId) : Bytes :=
  match t.interrupts id with
  | ⟨some controller, some groups⟩ =>
    summaryLine "irq" (t.pathOf controller ++ utf8 ", " ++ Bytes.decimal groups.length ++
      utf8 " specifiers")
  | _ => []

def partitionLine (p : Partition) : Bytes :=
  summaryLine "part" (p.name ++ utf8 " " ++ spanText p.address p.stop ++
    if p.overlap > 0 then utf8 " (overlaps previous by " ++ hexText p.overlap ++ utf8 ")" else [])

def chartLines (l : FlashLayout) : Bytes :=
  l.entries.flatMap partitionLine ++
    l.gaps.flatMap fun g => summaryLine "free" (spanText g.address (g.address + g.size))

def layoutLines (t : Tree) (id : NodeId) : Except Panic Bytes :=
  (t.partitions? id).map fun l => (l.map chartLines).getD []

def concerns (t : Tree) (id : NodeId) (p : Pin) : Bool :=
  p.node = id || p.controller = some id || (p.property.bind t.nodeOf?) = some id

def pinLine (t : Tree) (p : Pin) : Bytes :=
  let function := match p.function with
    | some f => utf8 " func " ++ Bytes.signed f.toInt
    | none => []
  let user := match p.property with
    | some q =>
      utf8 " (" ++ ((t.nodeOf? q).map t.pathOf).getD [] ++ q.name ++ utf8 ")"
    | none => []
  summaryLine "pin" (p.port ++ utf8 " " ++ Bytes.signed p.pin.toInt ++ function ++ user)

def headLines (t : Tree) (board : Option Board) (id : NodeId) : Bytes :=
  let n := t.node id
  (match board with
  | some b => summaryLine "board" b.summary
  | none => []) ++
  summaryLine "path" n.path ++
  (if n.labels = [] then [] else summaryLine "labels" (Bytes.join (utf8 " ") n.labels)) ++
  (match t.type? id with
  | some b => summaryLine "binding" (b.compatible ++ utf8 " (" ++ b.file ++ utf8 ")")
  | none => [])

def tailLines (t : Tree) (id : NodeId) : Bytes :=
  (t.pins.filter (t.concerns id)).flatMap t.pinLine ++
  ((t.node id).fragments.filterMap t.fragment?).flatMap (fun f =>
    summaryLine "entry" (f.file ++ utf8 ":" ++ Bytes.decimal f.range.start.line)) ++
  utf8 "\n" ++ t.printNode .evaluated id

def summary (t : Tree) (board : Option Board) (id : NodeId) : Except Panic Bytes := do
  let registers ← t.registerLines id
  let layout ← t.layoutLines id
  return t.headLines board id ++ registers ++ t.interruptLine id ++ layout ++ t.tailLines id

def named? (t : Tree) (spec : Bytes) : Option NodeId :=
  match t.find? spec with
  | some id => some id
  | none =>
    match t.alias? spec with
    | some id => some id
    | none => t.chosen? spec

end DeviceTree.Tree
