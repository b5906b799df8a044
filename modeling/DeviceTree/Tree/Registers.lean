import DeviceTree.Tree.Query

namespace DeviceTree

structure RegBlock where
  address : UInt64
  size : UInt64
  array : CellArray
  deriving DecidableEq, Repr

namespace RegBlock

-- The first address past a block; at the top of the address space it stays below 2^64.
def stopOf (address size : UInt64) : UInt64 :=
  if address + size < address then 0xffffffffffffffff else address + size

def stop (b : RegBlock) : UInt64 := stopOf b.address b.size

end RegBlock

inductive Panic where
  | pastEnd (stop : Int64) (capacity : Nat)
  | disordered (start stop : Int64)
  | oversize
  deriving DecidableEq, Repr

def Panic.message : Panic → Bytes
  | .pastEnd stop capacity =>
    utf8 "runtime error: slice bounds out of range [:" ++ Bytes.signed stop.toInt ++ utf8 "]" ++
      if stop < 0 then [] else utf8 " with capacity " ++ Bytes.decimal capacity
  | .disordered start stop =>
    utf8 "runtime error: slice bounds out of range [" ++ Bytes.signed start.toInt ++ utf8 ":" ++
      (if start < 0 then [] else Bytes.signed stop.toInt) ++ utf8 "]"
  | .oversize => utf8 "runtime error: makeslice: cap out of range"

structure Registers where
  known : Bool
  addressCells : Int64
  sizeCells : Int64
  blocks : List RegBlock
  deriving DecidableEq, Repr

namespace Registers

def none : Registers := ⟨false, 0, 0, []⟩

def count? (n : Node) (name : Bytes) : Option Int64 :=
  match (n.property? name).map Property.values with
  | some [.array a] =>
    (match a.values? with
    | some [v] => if v < 0 then Option.none else some v
    | _ => Option.none)
  | _ => Option.none

-- The low 32 bits of each cell, the first the most significant; the result keeps 64 bits.
def joinCells (cells : List Int64) : UInt64 :=
  cells.foldl (fun v c => v <<< 32 ||| (c.toUInt64 &&& 0xffffffff)) 0

def slice (cells : List Int64) (first last : Int64) : Except Panic (List Int64) :=
  if last < 0 || last.toInt > cells.length then .error (.pastEnd last cells.length)
  else if first < 0 || first > last then .error (.disordered first last)
  else .ok ((cells.drop first.toNatClampNeg).take (last - first).toNatClampNeg)

-- Counting is in 64-bit words with a sign, as the widths may be any such number.
def blocksFrom (array : CellArray) (cells : List Int64) (addressCells stride : Int64) :
    (fuel : Nat) → (index : Int64) → Except Panic (List RegBlock)
  | 0, _ => .ok []
  | fuel + 1, index =>
    if index.toInt < cells.length then do
      let address ← slice cells index (index + addressCells)
      let size ← slice cells (index + addressCells) (index + stride)
      let rest ← blocksFrom array cells addressCells stride fuel (index + stride)
      return ⟨joinCells address, joinCells size, array⟩ :: rest
    else .ok []

def readValue (addressCells sizeCells : Int64) : Value → Except Panic (Option (List RegBlock))
  | .array a =>
    match a.values? with
    | some cells =>
      if Int64.ofNat cells.length % (addressCells + sizeCells) != 0 then .ok Option.none
      else (blocksFrom a cells addressCells (addressCells + sizeCells) cells.length 0).map some
    | Option.none => .ok Option.none
  | _ => .ok Option.none

def readValues (addressCells sizeCells : Int64) : List Value → Except Panic (Option (List RegBlock))
  | [] => .ok (some [])
  | v :: rest => do
    match ← readValue addressCells sizeCells v with
    | some found => return (← readValues addressCells sizeCells rest).map (found ++ ·)
    | Option.none => return Option.none

end Registers

namespace Tree

def inheritedWidth (t : Tree) (id : NodeId) (name : Bytes) (default : Int64) : Option Int64 :=
  match (t.store.lineage id).find? fun n => ((t.node n).property? name).isSome with
  | some n => Registers.count? (t.node n) name
  | none => some default

def cellWidths (t : Tree) (id : NodeId) : Option (Int64 × Int64) :=
  match t.inheritedWidth id (utf8 "#address-cells") 2, t.inheritedWidth id (utf8 "#size-cells") 1 with
  | some address, some size => some (address, size)
  | _, _ => none

def registers (t : Tree) (id : NodeId) : Except Panic Registers :=
  match (t.node id).parent with
  | none => .ok .none
  | some parent =>
    match t.cellWidths parent with
    | none => .ok .none
    | some (address, size) =>
      match (t.node id).property? (utf8 "reg") with
      | none => .ok ⟨true, address, size, []⟩
      | some p =>
        if address + size = 0 then .ok ⟨false, address, size, []⟩
        else (Registers.readValues address size p.values).map fun
          | some blocks => ⟨true, address, size, blocks⟩
          | none => ⟨false, address, size, []⟩

end Tree
end DeviceTree
