import DeviceTree.Inspector.Graph
import DeviceTree.Inspector.Page
import DeviceTree.Tree.Printer

namespace DeviceTree

structure Inspector where
  tree : Option Tree
  focus : Option NodeId

namespace Inspector

def empty : Inspector := ⟨none, none⟩

def focusPath? (i : Inspector) : Option Bytes :=
  match i.tree, i.focus with
  | some t, some id => some (t.pathOf id)
  | _, _ => none

def setTree (i : Inspector) (t : Tree) : Inspector := ⟨some t, i.focusPath?.bind t.find?⟩

def setFocus (i : Inspector) (id : NodeId) : Inspector := { i with focus := some id }

structure Reply where
  status : Nat
  contentType : Bytes
  body : Bytes
  deriving DecidableEq, Repr

def plainText : Bytes := utf8 "text/plain; charset=utf-8"

def graphText (i : Inspector) : Bytes :=
  match i.tree, i.focus with
  | some t, some id => t.graph id
  | _, _ => utf8 "graph TD\n  Start[Hover a node to inspect it]"

def serve (i : Inspector) (target : Bytes) : Reply :=
  let path := Bytes.before 0x3f target
  if path = utf8 "/graph" then ⟨200, plainText, i.graphText⟩
  else if path = utf8 "/tree" then
    match i.tree with
    | some t => ⟨200, plainText, t.print .evaluated⟩
    | none => ⟨404, plainText, utf8 "no context open\n"⟩
  else ⟨200, utf8 "text/html", page⟩

end Inspector
end DeviceTree
