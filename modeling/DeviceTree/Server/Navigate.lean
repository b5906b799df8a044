import DeviceTree.Server.Publish
import DeviceTree.Tree.Reference

namespace DeviceTree

structure Location where
  file : Bytes
  range : Range
  deriving DecidableEq, Repr

namespace Tree

def refAt? (p : Position) : Hit → Option Ref
  | .cell _ _ _ (.ref r) => some r
  | .value _ _ (.ref r) => some r
  | .entry f => f.2.decl.head.heading.ref?.filter (·.range.contains p)
  | _ => none

def Hit.fragment? : Hit → Option Fragment
  | .none => Option.none
  | .entry f | .property f _ | .value f _ _ | .cell f _ _ _ => some f.2

def Hit.node? (h : Hit) : Option NodeId :=
  h.fragment?.bind fun f => if f.deleted then Option.none else f.node

def targetAt? (t : Tree) (p : Position) (h : Hit) : Option NodeId :=
  match refAt? p h with
  | some r => t.resolve r.target
  | none => h.node?

def fragmentsOn (t : Tree) (id : NodeId) : List Fragment :=
  (t.node id).fragments.filterMap t.fragment?

def declarations (t : Tree) (id : NodeId) : List Location :=
  (t.fragmentsOn id).filterMap fun f =>
    match f.decl.head.heading.ref? with
    | some _ => none
    | none => some ⟨f.file, f.decl.head.nameRange⟩

def usesOf (t : Tree) (id : NodeId) : List Location :=
  let blocks := (t.fragmentsOn id).filterMap fun f =>
    f.decl.head.heading.ref?.map fun r => Location.mk f.file r.range
  let references := t.references.filter fun u => t.resolve u.ref.target = some id
  blocks ++ references.map fun u => ⟨t.fileOf u.property, u.ref.range⟩

def definitionAt (t : Tree) (file : Bytes) (p : Position) : List Location :=
  match (refAt? p (t.query file p)).bind fun r => t.resolve r.target with
  | some id => t.declarations id
  | none => []

def referencesAt (t : Tree) (file : Bytes) (p : Position) (withDeclarations : Bool) :
    List Location :=
  match t.targetAt? p (t.query file p) with
  | some id => (if withDeclarations then t.declarations id else []) ++ t.usesOf id
  | none => []

end Tree

namespace Server

def locationJson (l : Location) : Json :=
  .ofMembers [("uri", .string (Uri.ofPath l.file)), ("range", rangeJson l.range)]

def linkJson? (i : ResolvedInclude) : Option Json :=
  i.target.map fun target =>
    .ofMembers [("range", rangeJson i.decl.pathRange), ("target", .string (Uri.ofPath target))]

end Server
end DeviceTree
