import DeviceTree.Tree.Reference

namespace DeviceTree.Tree

structure Placed where
  order : Nat
  node : NodeId
  reg : Property
  block : RegBlock

def Placed.extent (p : Placed) : Extent := ⟨p.block.address, p.block.stop⟩

def isDisabled (n : Node) : Bool := (n.strings (utf8 "status")).head? = some (utf8 "disabled")

def checkReferences (t : Tree) : List Diagnostic :=
  t.unresolved.map fun u =>
    let node := ((t.nodeOf? u.property).map t.pathOf).getD []
    ⟨t.fileOf u.property, u.ref.range, .unresolved u.ref.text node u.property.name⟩

-- An overlap is told to the node that was declared later.
def overlap (t : Tree) (a b : Placed) : Option Diagnostic :=
  if a.node = b.node then none
  else
    let (a, b) := if b.order < a.order then (b, a) else (a, b)
    some ⟨t.fileOf b.reg, b.reg.range,
      .overlap (t.pathOf b.node) b.extent (t.pathOf a.node) a.extent⟩

def overlaps (t : Tree) : List Placed → List Diagnostic
  | [] => []
  | a :: rest =>
    (rest.takeWhile fun b => b.block.address < a.block.stop).filterMap (t.overlap a) ++
      overlaps t rest

def placedOf (t : Tree) (order : Nat) (id : NodeId) : Except Panic (Except Diagnostic (List Placed)) :=
  match (t.node id).property? (utf8 "reg") with
  | none => .ok (.ok [])
  | some reg => (t.registers id).map fun r =>
    if !r.known then .error ⟨t.fileOf reg, reg.range, .unknownBlocks (t.pathOf id)⟩
    else if isDisabled (t.node id) then .ok []
    else .ok ((r.blocks.filter (·.size != 0)).map (⟨order, id, reg, ·⟩))

def reportPlaced (t : Tree) (found : List (Except Diagnostic (List Placed))) : List Diagnostic :=
  let unknown := found.filterMap fun
    | .error d => some d
    | .ok _ => none
  let blocks := found.flatMap fun
    | .error _ => []
    | .ok blocks => blocks
  unknown ++ t.overlaps (blocks.mergeSort fun a b => a.block.address ≤ b.block.address)

def checkChildren (t : Tree) (id : NodeId) : Except Panic (List Diagnostic) :=
  ((t.node id).children.zipIdx.mapM fun (c, order) => t.placedOf order c).map t.reportPlaced

def checkRegisters (t : Tree) : Except Panic (List Diagnostic) :=
  (t.nodes.mapM t.checkChildren).map List.flatten

def check (t : Tree) : Except Panic (List Diagnostic) := t.checkRegisters.map (t.checkReferences ++ ·)

end DeviceTree.Tree
