import DeviceTree.Path
import DeviceTree.Source.Document

namespace DeviceTree

abbrev NodeId := Nat
abbrev FragmentId := Nat

structure Property where
  decl : PropertyDecl
  fragment : FragmentId
  deriving DecidableEq, Repr

namespace Property

def name (p : Property) : Bytes := p.decl.name
def values (p : Property) : List Value := p.decl.values
def range (p : Property) : Range := p.decl.range

def strings (p : Property) : List Bytes := p.values.filterMap Value.string?

def cells (p : Property) : List Cell :=
  p.values.flatMap fun
    | .array a => a.cells
    | _ => []

end Property

abbrev PropertyList := List Property

namespace PropertyList

def find (props : PropertyList) (name : Bytes) : Option Property := props.find? (·.name = name)

def set (p : Property) : PropertyList → PropertyList
  | [] => [p]
  | q :: rest => if q.name = p.name then p :: rest else q :: set p rest

def erase (props : PropertyList) (name : Bytes) : PropertyList :=
  props.eraseP (·.name = name)

end PropertyList

-- Nodes by a text. What was put last is found first.
abbrev NodeTable := List (Bytes × NodeId)

namespace NodeTable

def find? (t : NodeTable) (key : Bytes) : Option NodeId := t.lookup key
def put (t : NodeTable) (key : Bytes) (id : NodeId) : NodeTable := (key, id) :: t
def erase (t : NodeTable) (key : Bytes) : NodeTable := t.filter (·.1 != key)

end NodeTable

structure Node where
  name : Bytes
  path : Bytes
  parent : Option NodeId
  labels : List Bytes
  fragments : List FragmentId
  children : List NodeId
  childNames : NodeTable
  properties : PropertyList
  deriving Repr, Inhabited

namespace Node

def root : Node := ⟨utf8 "/", utf8 "/", none, [], [], [], [], []⟩

def property? (n : Node) (name : Bytes) : Option Property := n.properties.find name

def strings (n : Node) (name : Bytes) : List Bytes :=
  ((n.property? name).map Property.strings).getD []

def base (n : Node) : Bytes := baseName n.name
def unit? (n : Node) : Option Bytes := unitAddress? n.name

def uniqueName (n : Node) : Bytes := n.labels.head?.getD n.name

end Node

structure Store where
  nodes : Array Node
  deriving Repr

namespace Store

def rootId : NodeId := 0

def empty : Store := ⟨#[Node.root]⟩

def node (s : Store) (id : NodeId) : Node := s.nodes.getD id Node.root

def modify (s : Store) (id : NodeId) (f : Node → Node) : Store := ⟨s.nodes.modify id f⟩

def childNamed? (s : Store) (id : NodeId) (name : Bytes) : Option NodeId := (s.node id).childNames.find? name

def addChild (c : NodeId) (name : Bytes) (n : Node) : Node :=
  { n with children := n.children ++ [c], childNames := n.childNames.put name c }

def removeChild (c : NodeId) (name : Bytes) (n : Node) : Node :=
  { n with children := n.children.erase c, childNames := n.childNames.erase name }

def child (s : Store) (id : NodeId) (name : Bytes) : NodeId × Store :=
  match s.childNamed? id name with
  | some c => (c, s)
  | none =>
    let fresh : Node :=
      { name, path := (s.node id).path ++ name ++ utf8 "/", parent := some id, labels := [],
        fragments := [], children := [], childNames := [], properties := [] }
    let c := s.nodes.size
    (c, (Store.mk (s.nodes.push fresh)).modify id (addChild c name))

-- The child itself stays in the store, where the block that is being read can go on growing it.
def detach (s : Store) (id : NodeId) (name : Bytes) : Store :=
  match s.childNamed? id name with
  | some c => s.modify id (removeChild c name)
  | none => s

-- A node and all below it, parents first. Numbers grow downwards, so the size of the store
-- bounds the depth.
def below (s : Store) : (fuel : Nat) → NodeId → List NodeId
  | 0, _ => []
  | fuel + 1, id => id :: (s.node id).children.flatMap (below s fuel)

def subtree (s : Store) (id : NodeId) : List NodeId := s.below s.nodes.size id

def pathTable (s : Store) : NodeTable :=
  (s.subtree rootId).foldl (fun table id => table.put (s.node id).path id) []

def upwards (s : Store) : (fuel : Nat) → NodeId → List NodeId
  | 0, _ => []
  | fuel + 1, id =>
    id :: match (s.node id).parent with
      | some p => upwards s fuel p
      | none => []

def lineage (s : Store) (id : NodeId) : List NodeId := s.upwards s.nodes.size id

-- A name without unit address also finds a child with one, if it is the only one of that
-- base name.
def step? (s : Store) (id : NodeId) (name : Bytes) : Option NodeId :=
  match s.childNamed? id name with
  | some c => some c
  | none =>
    if name.elem 0x40 then none
    else
      match (s.node id).children.filter fun c => (s.node c).base = name with
      | [c] => some c
      | _ => none

def find? (s : Store) (path : Bytes) : Option NodeId :=
  if Path.isAbsolute path then
    ((Bytes.split 0x2f path).filter (· != [])).foldlM s.step? rootId
  else none

end Store
end DeviceTree
