import DeviceTree.Tree.Registers

namespace DeviceTree.Tree

structure Use where
  ref : Ref
  property : Property
  deriving DecidableEq, Repr

def refsOf : Value → List Ref
  | .ref r => [r]
  | .array a => a.cells.filterMap fun
    | .ref r => some r
    | .int .. => none
  | _ => []

def references (t : Tree) : List Use :=
  t.nodes.flatMap fun id => (t.node id).properties.flatMap fun p =>
    (p.values.flatMap refsOf).map (⟨·, p⟩)

def unresolved (t : Tree) : List Use := t.references.filter fun u => (t.resolve u.ref.target).isNone

-- The binding of a node below a parent of the given type: the first compatible string that
-- has a binding, one for the bus of the parent before others; else what the parent says
-- about its children.
def typeBelow (t : Tree) (catalog : Catalog) (parent : Option Binding) (id : NodeId) :
    Option Binding :=
  let buses := (parent.map (·.buses)).getD []
  match ((t.node id).strings (utf8 "compatible")).findSome? (catalog.resolveOnBus · buses) with
  | some b => some b
  | none => parent.bind (·.child)

def type? (t : Tree) (id : NodeId) : Option Binding :=
  match t.bindings with
  | none => none
  | some catalog => (t.store.lineage id).reverse.foldl (t.typeBelow catalog) none

def rule? (t : Tree) (p : Property) : Option PropertyRule :=
  ((t.nodeOf? p).bind t.type?).bind (·.property? p.name)

structure Entry where
  ref : Ref
  target : Option NodeId
  cells : List Cell
  deriving DecidableEq, Repr

-- How many of the cells after a reference belong to it: as many as its target says, and up
-- to the next reference if that is not known.
def specifierLength (count : Option Int64) (cells : List Cell) : Nat :=
  match count with
  | some n => min n.toNatClampNeg cells.length
  | none => (cells.takeWhile (!·.isRef)).length

def entriesOf (t : Tree) (space : Bytes) : List Cell → List Entry
  | [] => []
  | .int .. :: rest => entriesOf t space rest
  | .ref r :: rest =>
    let target := t.resolve r.target
    let count := target.bind fun id =>
      Registers.count? (t.node id) (utf8 "#" ++ space ++ utf8 "-cells")
    let n := specifierLength count rest
    ⟨r, target, rest.take n⟩ :: entriesOf t space (rest.drop n)
termination_by cells => cells.length
decreasing_by all_goals (simp only [List.length_drop, List.length_cons]; omega)

def entries (t : Tree) (p : Property) : List Entry :=
  t.entriesOf (specifierSpace p.name (t.rule? p)) p.cells

def firstRef? (p : Property) : Option Ref :=
  let inCells := p.cells.findSome? fun
    | .ref r => some r
    | .int .. => none
  inCells.orElse fun _ => p.values.findSome? fun
    | .ref r => some r
    | _ => none

def interruptParent? (t : Tree) (id : NodeId) : Option NodeId :=
  match (t.store.lineage id).findSome? fun n => (t.node n).property? (utf8 "interrupt-parent") with
  | some p => (firstRef? p).bind fun r => t.resolve r.target
  | none => (t.node id).parent

def chunks (size : Nat) (cells : List Cell) : List (List Cell) :=
  go cells.length cells
where
  go : Nat → List Cell → List (List Cell)
    | 0, _ => []
    | fuel + 1, cells => if cells.isEmpty then [] else cells.take size :: go fuel (cells.drop size)

structure Interrupts where
  controller : Option NodeId
  groups : Option (List (List Cell))

def interrupts (t : Tree) (id : NodeId) : Interrupts :=
  match (t.node id).property? (utf8 "interrupts"), t.interruptParent? id with
  | some p, some controller =>
    let groups := match Registers.count? (t.node controller) (utf8 "#interrupt-cells") with
      | some count =>
        if count = 0 || Int64.ofNat p.cells.length % count != 0 then none
        else some (chunks count.toNatClampNeg p.cells)
      | none => none
    ⟨some controller, groups⟩
  | _, _ => ⟨none, none⟩

-- A reference itself is called `phandle`.
def entryNames (t : Tree) (p : Property) (rule : PropertyRule) (e : Entry) : List Bytes :=
  let names := (e.target.bind t.type?).bind (·.specifierCells? (specifierSpace p.name (some rule)))
  utf8 "phandle" :: names.getD []

def listNames? (t : Tree) (p : Property) : Option (List (List Bytes)) :=
  match t.rule? p with
  | some rule =>
    if rule.kind = some .phandleArray || rule.kind = some .phandles then
      match t.entries p with
      | [] => none
      | found => some (found.map (t.entryNames p rule))
    else none
  | none => none

-- Room for the names is made beforehand; no list of names may take more than 2^48 bytes.
def registerNames? (r : Registers) : Except Panic (Option (List (List Bytes))) :=
  if !r.known then .ok none
  else if r.addressCells + r.sizeCells < 0 || r.addressCells + r.sizeCells > 0x100000000000 then .error .oversize
  else .ok (some [List.replicate r.addressCells.toNatClampNeg (utf8 "addr") ++
    List.replicate r.sizeCells.toNatClampNeg (utf8 "size")])

def cellNames? (t : Tree) (p : Property) : Except Panic (Option (List (List Bytes))) :=
  match t.nodeOf? p with
  | none => .ok none
  | some id =>
    if p.name = utf8 "reg" then (t.registers id).bind registerNames?
    else if p.name = utf8 "interrupts" then
      .ok ((DeviceTree.cellNames? ((t.interruptParent? id).bind t.type?) p.name).map fun names => [names])
    else .ok (t.listNames? p)

end DeviceTree.Tree
