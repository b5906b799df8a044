import DeviceTree.Tree.Reference

namespace DeviceTree.Tree

def boxRune (r : Text.Rune) : UInt8 :=
  match r with
  | .scalar c =>
    let b := c.toUInt8
    if c < 0x80 && (Bytes.isLetter b || Bytes.isDigit b) then b else 0x5f
  | .stray _ => 0x5f

def boxId (t : Tree) (id : NodeId) : Bytes := utf8 "n" ++ (Text.decode (t.pathOf id)).map boxRune

def boxLabel (t : Tree) (id : NodeId) : Bytes :=
  let n := t.node id
  let label := match n.labels with
    | label :: _ => label ++ utf8 ": " ++ n.name
    | [] => n.name
  Bytes.replaceByte 0x22 (utf8 "'") label

def box (t : Tree) (id : NodeId) : Bytes :=
  t.boxId id ++ utf8 "[\"" ++ t.boxLabel id ++ utf8 "\"]"

def graphLine (parts : List Bytes) : Bytes :=
  utf8 "  " ++ Bytes.join (utf8 " ") parts ++ utf8 "\n"

def referenceLines (t : Tree) (focus : NodeId) (u : Use) : Bytes :=
  match t.nodeOf? u.property, t.resolve u.ref.target with
  | some source, some target =>
    let arrow := [utf8 "-.", u.property.name, utf8 ".->"]
    if source = focus then
      graphLine ([t.boxId focus] ++ arrow ++ [t.box target]) ++
        graphLine [utf8 "class", t.boxId target, utf8 "ref"]
    else if target = focus then
      graphLine ([t.box source] ++ arrow ++ [t.boxId focus]) ++
        graphLine [utf8 "class", t.boxId source, utf8 "ref"]
    else []
  | _, _ => []

def graph (t : Tree) (focus : NodeId) : Bytes :=
  let n := t.node focus
  let arrow := utf8 "-->"
  utf8 "graph LR\n" ++
    graphLine [t.box focus] ++
    graphLine [utf8 "class", t.boxId focus, utf8 "focus"] ++
    (match n.parent with
    | some parent => graphLine [t.box parent, arrow, t.boxId focus]
    | none => []) ++
    n.children.flatMap (fun c => graphLine [t.boxId focus, arrow, t.box c]) ++
    t.references.flatMap (t.referenceLines focus) ++
    graphLine [utf8 "classDef focus fill:#ffe9a8,stroke:#333,stroke-width:2px;"] ++
    graphLine [utf8 "classDef ref fill:#dde8f5,stroke:#333,stroke-width:1px;"]

end DeviceTree.Tree
