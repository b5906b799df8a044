import DeviceTree.Tree.Merge

namespace DeviceTree.Tree

def label? (t : Tree) (name : Bytes) : Option NodeId :=
  (t.labels.find? (·.name = name)).map (·.node)

def exactly? (t : Tree) (path : Bytes) : Option NodeId := t.byPath.find? path

def atPath? (t : Tree) (path : Bytes) : Option NodeId :=
  let path := if Bytes.endsWith path (utf8 "/") then path else path ++ utf8 "/"
  match t.exactly? path with
  | some id => some id
  | none => t.store.find? path

def resolve (t : Tree) : Target → Option NodeId
  | .label l => t.label? l
  | .path p => t.atPath? p

def find? (t : Tree) (spec : Bytes) : Option NodeId :=
  match Bytes.dropLead? (utf8 "&\x7b") spec with
  | some rest =>
    match Bytes.dropTail? (utf8 "\x7d") rest with
    | some path => t.atPath? path
    | none => t.label? (spec.drop 1)
  | none =>
    match spec with
    | 0x26 :: name => t.label? name
    | 0x2f :: _ => t.atPath? spec
    | _ => t.label? spec

def fragmentsOf (t : Tree) (file : Bytes) : List (FragmentId × Fragment) :=
  (t.fragments.toList.zipIdx.map fun (f, id) => (id, f)).filter fun (_, f) => f.file = file

def properties (f : FragmentId × Fragment) : List Property :=
  f.2.decl.properties.map (⟨·, f.1⟩)

def entryAt? (t : Tree) (file : Bytes) (p : Position) : Option (FragmentId × Fragment) :=
  (t.fragmentsOf file).foldl (fun best f =>
    if f.2.range.contains p then
      match best with
      | some b => if f.2.range.start.before b.2.range.start then best else some f
      | none => some f
    else best) none

def propertyIn? (f : FragmentId × Fragment) (p : Position) : Option Property :=
  (properties f).find? (·.range.contains p)

def propertyAt? (t : Tree) (file : Bytes) (p : Position) : Option Property :=
  (t.entryAt? file p).bind (propertyIn? · p)

inductive Hit where
  | none
  | entry (fragment : FragmentId × Fragment)
  | property (fragment : FragmentId × Fragment) (property : Property)
  | value (fragment : FragmentId × Fragment) (property : Property) (value : Value)
  | cell (fragment : FragmentId × Fragment) (property : Property) (array : CellArray)
      (cell : Cell)

def query (t : Tree) (file : Bytes) (p : Position) : Hit :=
  match t.entryAt? file p with
  | Option.none => .none
  | some f =>
    match propertyIn? f p with
    | Option.none => .entry f
    | some prop =>
      match prop.values.find? (·.range.contains p) with
      | Option.none => .property f prop
      | some (.array a) =>
        (match a.cellAt p with
        | some c => .cell f prop a c
        | Option.none => .value f prop (.array a))
      | some v => .value f prop v

def alias? (t : Tree) (name : Bytes) : Option NodeId :=
  match (t.exactly? (utf8 "/aliases/")).bind fun id => (t.node id).property? name with
  | some p =>
    match p.values.head? with
    | some (.ref r) => t.resolve r.target
    | some (.string _ s) => if Path.isAbsolute s then t.atPath? s else none
    | _ => none
  | none => none

def chosen? (t : Tree) (name : Bytes) : Option NodeId :=
  match (t.exactly? (utf8 "/chosen/")).bind fun id => (t.node id).property? name with
  | some p =>
    match p.values.head? with
    | some (.ref r) => t.resolve r.target
    | some (.string _ s) => if Path.isAbsolute s then t.atPath? s else t.alias? s
    | _ => none
  | none => none

def nodeOf? (t : Tree) (p : Property) : Option NodeId :=
  (t.fragment? p.fragment).bind (·.node)

def fileOf (t : Tree) (p : Property) : Bytes :=
  ((t.fragment? p.fragment).map (·.file)).getD []

def pathOf (t : Tree) (id : NodeId) : Bytes := (t.node id).path

end DeviceTree.Tree
