import DeviceTree.Binding.Catalog
import DeviceTree.Source.File
import DeviceTree.Tree.Store

namespace DeviceTree

-- One declaration block of a node. A block for a node that does not exist has none.
structure Fragment where
  file : Bytes
  decl : NodeDecl
  node : Option NodeId
  deleted : Bool

def Fragment.range (f : Fragment) : Range := f.decl.head.range

structure LabelOwner where
  name : Bytes
  node : NodeId
  file : Bytes
  range : Range
  deriving DecidableEq, Repr

structure Merge where
  store : Store
  fragments : Array Fragment
  labels : List LabelOwner
  files : List Bytes
  diagnostics : List Diagnostic

namespace Merge

def empty : Merge := ⟨.empty, #[], [], [], []⟩

def report (m : Merge) (file : Bytes) (range : Range) (finding : Finding) : Merge :=
  { m with diagnostics := m.diagnostics ++ [⟨file, range, finding⟩] }

def owner? (m : Merge) (label : Bytes) : Option LabelOwner := m.labels.find? (·.name = label)

def lookup (m : Merge) : Target → Option NodeId
  | .label l => (m.owner? l).map (·.node)
  | .path p => m.store.find? p

-- Puts a label on a node. A label that another node has moves over, and the declaration
-- that loses it is told.
def addLabel (m : Merge) (file : Bytes) (id : NodeId) (l : Label) : Merge :=
  let m := match m.owner? l.name with
    | some owner =>
      if owner.node = id then m
      else
        let moved := Finding.labelMoved l.name (m.store.node id).path file l.range.start.line
        let store := m.store.modify owner.node fun n => { n with labels := n.labels.erase l.name }
        { m.report owner.file owner.range moved with store }
    | none => m
  let labels := m.labels.filter (·.name != l.name) ++ [⟨l.name, id, file, l.range⟩]
  let store := m.store.modify id fun n =>
    if n.labels.elem l.name then n else { n with labels := n.labels ++ [l.name] }
  { m with labels, store }

def openBlock (m : Merge) (file : Bytes) (decl : NodeDecl) (node : Option NodeId) :
    FragmentId × Merge :=
  let id := m.fragments.size
  let m := { m with fragments := m.fragments.push ⟨file, decl, node, false⟩ }
  match node with
  | none => (id, m)
  | some n =>
    let store := m.store.modify n fun n => { n with fragments := n.fragments ++ [id] }
    (id, decl.head.labels.foldl (fun m l => m.addLabel file n l) { m with store })

def setProperty (m : Merge) (node : Option NodeId) (p : Property) : Merge :=
  match node with
  | none => m
  | some id =>
    { m with store := m.store.modify id fun n => { n with properties := n.properties.set p } }

def eraseProperty (m : Merge) (id : NodeId) (name : Bytes) : Merge :=
  { m with store := m.store.modify id fun n => { n with properties := n.properties.erase name } }

def retire (m : Merge) (id : NodeId) : Merge :=
  let n := m.store.node id
  let fragments := n.fragments.foldl
    (fun fragments f => fragments.modify f fun f => { f with deleted := true }) m.fragments
  let labels := m.labels.filter fun o => !(o.node = id && n.labels.elem o.name)
  { m with fragments, labels }

def deleteNode (m : Merge) (file : Bytes) (d : Delete) (target : Option NodeId) : Merge :=
  match target with
  | none => m.report file d.nameRange (.deletedMissing d.name)
  | some id =>
    match (m.store.node id).parent with
    | none => m.report file d.nameRange .deletedRoot
    | some parent =>
      let m := { m with store := m.store.detach parent (m.store.node id).name }
      (m.store.subtree id).foldl retire m

def deleteIn (m : Merge) (file : Bytes) (node : Option NodeId) (d : Delete) : Merge :=
  match node with
  | none => m
  | some id =>
    match d.victim with
    | .property name => m.eraseProperty id name
    | .node name => m.deleteNode file d (m.store.childNamed? id name)
    | .target r => m.deleteNode file d (m.lookup r.target)

-- The node that a nested declaration is about; nothing is made below a missing node.
def childOf (m : Merge) (node : Option NodeId) (name : Bytes) : Option NodeId × Merge :=
  match node with
  | none => (none, m)
  | some id =>
    let (c, store) := m.store.child id name
    (some c, { m with store })

mutual

def statement (file : Bytes) (node : Option NodeId) (fragment : FragmentId) : Statement → Merge → Merge
  | .property decl, m => m.setProperty node ⟨decl, fragment⟩
  | .node head body, m =>
    let (child, m) := m.childOf node head.heading.nodeName
    let (inner, m) := m.openBlock file ⟨head, body⟩ child
    statements file child inner body m
  | .delete d, m => m.deleteIn file node d

def statements (file : Bytes) (node : Option NodeId) (fragment : FragmentId) : List Statement → Merge → Merge
  | [], m => m
  | s :: rest, m => statements file node fragment rest (statement file node fragment s m)

end

def topNode (m : Merge) (file : Bytes) (decl : NodeDecl) : Merge :=
  let (node, m) : Option NodeId × Merge :=
    match decl.head.heading with
    | .ref r =>
      match m.lookup r.target with
      | some id => (some id, m)
      | none => (none, m.report file r.range (.undefinedNode r.text))
    | .name name =>
      if name = utf8 "/" then (some Store.rootId, m)
      else m.childOf (some Store.rootId) name
  let (fragment, m) := m.openBlock file decl node
  statements file node fragment decl.body m

def topDelete (m : Merge) (file : Bytes) (d : Delete) : Merge :=
  match d.victim with
  | .target r => m.deleteNode file d (m.lookup r.target)
  | _ => m.report file d.nameRange .deletedByName

def enter (m : Merge) (path : Bytes) : Merge :=
  if m.files.elem path then m else { m with files := m.files ++ [path] }

def fileAt? (files : List File) (path : Bytes) : Option File := files.find? (·.path = path)

-- Reads one file with all that it includes. `chain` leads to it from a root; an include of
-- a file on the chain is a cycle. Files on a chain differ, so their number bounds its length.
def expand (files : List File) : (fuel : Nat) → (chain : List Bytes) → File → Merge → Merge
  | 0, _, _, m => m
  | fuel + 1, chain, f, m =>
    let chain := chain ++ [f.path]
    f.document.items.foldl (fun m item =>
      match item with
      | .include i =>
        (match f.target? i with
        | none => m
        | some target =>
          if i.isHeader then m
          else if chain.elem target then
            m.report f.path i.pathRange (.includeCycle (chain ++ [target]))
          else
            match fileAt? files target with
            | some g => expand files fuel chain g m
            | none => m.report f.path i.pathRange (.notLoaded target))
      | .node decl => m.topNode f.path decl
      | .delete d => m.topDelete f.path d
      | .directive _ => m) (m.enter f.path)

def addRoot (files : List File) (m : Merge) (root : Bytes) : Merge :=
  match fileAt? files root with
  | some f => expand files files.length [] f m
  | none => m.report root .zero (.rootNotLoaded root)

end Merge

structure Tree where
  name : Bytes
  store : Store
  fragments : Array Fragment
  labels : List LabelOwner
  files : List Bytes
  byPath : NodeTable
  bindings : Option Catalog
  diagnostics : List Diagnostic

namespace Tree

def merge (name : Bytes) (roots : List Bytes) (files : List File) (bindings : Option Catalog) :
    Tree :=
  let m := roots.foldl (Merge.addRoot files) .empty
  let own := m.files.flatMap fun path =>
    ((Merge.fileAt? files path).map File.diagnostics).getD []
  { name, store := m.store, fragments := m.fragments, labels := m.labels, files := m.files,
    byPath := m.store.pathTable, bindings, diagnostics := own ++ m.diagnostics }

def node (t : Tree) (id : NodeId) : Node := t.store.node id

def nodes (t : Tree) : List NodeId := t.store.subtree Store.rootId

def fragment? (t : Tree) (id : FragmentId) : Option Fragment := t.fragments[id]?

end Tree
end DeviceTree
