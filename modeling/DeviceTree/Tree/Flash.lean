import DeviceTree.Tree.Registers

namespace DeviceTree

structure Partition where
  node : NodeId
  name : Bytes
  address : UInt64
  size : UInt64
  -- How far the partition reaches back behind the end of all before it.
  overlap : UInt64
  deriving DecidableEq, Repr

def Partition.stop (p : Partition) : UInt64 := RegBlock.stopOf p.address p.size

structure Gap where
  address : UInt64
  size : UInt64
  deriving DecidableEq, Repr

structure FlashLayout where
  flash : Option NodeId
  partitions : NodeId
  capacity : Option UInt64
  entries : List Partition
  gaps : List Gap
  deriving DecidableEq, Repr

namespace FlashLayout

def sweep : UInt64 → List Partition → List Partition × List Gap × UInt64
  | offset, [] => ([], [], offset)
  | offset, p :: rest =>
    let overlap := if p.address < offset then offset - p.address else 0
    let gap := if p.address > offset then [Gap.mk offset (p.address - offset)] else []
    let (entries, gaps, stop) := sweep (max offset p.stop) rest
    ({ p with overlap } :: entries, gap ++ gaps, stop)

end FlashLayout

namespace Tree

def isCompatible (t : Tree) (id : NodeId) (compatible : Bytes) : Bool :=
  ((t.node id).strings (utf8 "compatible")).elem compatible

def isPartitions (t : Tree) (id : NodeId) : Bool := t.isCompatible id (utf8 "fixed-partitions")

def firstBlock? (t : Tree) (id : NodeId) : Except Panic (Option RegBlock) :=
  (t.registers id).map fun r => if r.known then r.blocks.head? else none

def partitionAt (t : Tree) (id : NodeId) (b : RegBlock) : Partition :=
  ⟨id, ((t.node id).strings (utf8 "label")).head?.getD (t.node id).uniqueName, b.address, b.size, 0⟩

def partition? (t : Tree) (id : NodeId) : Except Panic (Option Partition) :=
  (t.firstBlock? id).map (·.map (t.partitionAt id))

def capacity? (t : Tree) : (flash : Option NodeId) → Except Panic (Option UInt64)
  | some id => (t.firstBlock? id).map (·.map (·.size))
  | none => .ok none

def chart (t : Tree) (partitions : NodeId) (capacity : Option UInt64) (found : List Partition) : FlashLayout :=
  let (entries, gaps, stop) := FlashLayout.sweep 0 (found.mergeSort fun a b => a.address ≤ b.address)
  let rest := match capacity with
    | some c => if stop < c then [Gap.mk stop (c - stop)] else []
    | none => []
  ⟨(t.node partitions).parent, partitions, capacity, entries, gaps ++ rest⟩

def layoutOf (t : Tree) (partitions : NodeId) : Except Panic FlashLayout := do
  let capacity ← t.capacity? (t.node partitions).parent
  let found ← (t.node partitions).children.mapM t.partition?
  return t.chart partitions capacity (found.filterMap id)

def partitions? (t : Tree) (id : NodeId) : Except Panic (Option FlashLayout) :=
  if t.isPartitions id then (t.layoutOf id).map some
  else
    match (t.node id).children.find? t.isPartitions with
    | some c => (t.layoutOf c).map some
    | none => .ok none

def flashLayouts (t : Tree) : Except Panic (List FlashLayout) :=
  (t.nodes.filter fun id => (t.node id).parent.isSome && t.isPartitions id).mapM t.layoutOf

end Tree
end DeviceTree
