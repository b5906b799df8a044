import DeviceTree.Tree.Reference

namespace DeviceTree

structure Pin where
  port : Bytes
  controller : Option NodeId
  pin : Int64
  function : Option Int64
  node : NodeId
  property : Option Property
  deriving DecidableEq, Repr

namespace Pin

def le (a b : Pin) : Bool :=
  if a.port = b.port then a.pin ≤ b.pin else Bytes.le a.port b.port

end Pin

namespace Tree

def isSelector (name : Bytes) : Bool :=
  match Bytes.dropLead? (utf8 "pinctrl-") name with
  | some digits => !digits.isEmpty && digits.all Bytes.isDigit
  | none => false

def portName (t : Tree) (id : NodeId) : Bytes :=
  match (t.node id).labels with
  | label :: _ => utf8 "&" ++ label
  | [] => t.pathOf id

-- An entry `pinctrls = <&pinmuxX pin function>` stands for port `gpioX`.
def muxEntry? (t : Tree) (id : NodeId) : Option Pin :=
  match ((t.node id).property? (utf8 "pinctrls")).map Property.cells with
  | some (.ref ⟨_, .label label⟩ :: pin :: function :: _) =>
    match Bytes.dropLead? (utf8 "pinmux") label, pin.value?, function.value? with
    | some (b :: rest), some pin, some function =>
      let port := utf8 "gpio" ++ b :: rest
      some ⟨utf8 "&" ++ port, t.label? port, pin, some function, id, none⟩
    | _, _, _ => none
  | _ => none

def muxControllers : List Bytes := [utf8 "listenai,csk-pinctrl"]

def isMuxController (t : Tree) (id : NodeId) : Bool :=
  ((t.node id).strings (utf8 "compatible")).any muxControllers.elem

def pinsOf (t : Tree) (id : NodeId) (p : Property) : List Pin :=
  (t.entries p).filterMap fun e =>
    match e.target, e.cells.head?.bind Cell.value? with
    | some target, some pin =>
      if isSelector p.name then none
      else if ((t.node target).property? (utf8 "gpio-controller")).isNone then none
      else some ⟨t.portName target, some target, pin, none, id, some p⟩
    | _, _ => none

def selectionsOf (t : Tree) (p : Property) : List (NodeId × Property) :=
  if isSelector p.name then (t.entries p).filterMap fun e => e.target.map (·, p) else []

-- All uses, sorted. An entry stands once for each property that selects it.
def pins (t : Tree) : List Pin :=
  let props := t.nodes.flatMap fun id => (t.node id).properties.map (id, ·)
  let uses := props.flatMap fun (id, p) => t.pinsOf id p
  let selections := props.flatMap fun (_, p) => t.selectionsOf p
  let entries := t.nodes.filterMap fun id =>
    match (t.node id).parent with
    | some parent => if t.isMuxController parent then t.muxEntry? id else none
    | none => none
  let selected := entries.flatMap fun mux =>
    match selections.filter fun (id, _) => id = mux.node with
    | [] => [mux]
    | found => found.map fun (_, p) => { mux with property := some p }
  (uses ++ selected).mergeSort Pin.le

end Tree
end DeviceTree
