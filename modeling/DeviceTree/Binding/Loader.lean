import DeviceTree.Binding.Catalog
import DeviceTree.Binding.Document
import DeviceTree.Source.File

namespace DeviceTree

structure Flaw where
  reason : Bytes
  position : Option Position
  deriving DecidableEq, Repr

structure Refusal where
  message : Bytes
  flaws : List Flaw
  deriving DecidableEq, Repr

namespace Refusal

def ofRejection (r : Binding.Rejection) : Refusal := ⟨r.message, [⟨r.message, none⟩]⟩

def findings (path : Bytes) (r : Refusal) : List Diagnostic :=
  match r.flaws with
  | [] => [⟨path, .zero, .binding r.message⟩]
  | flaws => flaws.map fun f => ⟨path, f.position.elim .zero .point, .binding f.reason⟩

end Refusal

structure Loader where
  order : List Bytes
  accepted : List (Bytes × Binding)
  refused : List (Bytes × List Diagnostic)

namespace Loader

abbrev Outcome := Except Refusal Binding

def empty : Loader := ⟨[], [], []⟩

def forget (path : Bytes) (held : List (Bytes × α)) : List (Bytes × α) := held.filter (·.1 != path)

def register (l : Loader) (path : Bytes) (outcome : Outcome) : Loader :=
  let known := (l.accepted.lookup path).isSome || (l.refused.lookup path).isSome
  let order := if known then l.order else l.order ++ [path]
  let accepted := forget path l.accepted
  let refused := forget path l.refused
  match outcome with
  | .ok b => ⟨order, (path, b) :: accepted, refused⟩
  | .error e => ⟨order, accepted, (path, e.findings path) :: refused⟩

def readDocument (source : Source) (path : Bytes) : Except Binding.Rejection Binding :=
  match source.read path with
  | .ok text => Binding.ofText path text
  | .error e => .error (.unreadable e.message)

def outcome (source : Source) (path : Bytes) : Outcome :=
  (readDocument source path).mapError Refusal.ofRejection

def add (source : Source) (l : Loader) (path : Bytes) : Loader := l.register path (outcome source path)

def registerAll (l : Loader) (batch : List (Bytes × Outcome)) : Loader :=
  batch.foldl (fun l (path, outcome) => l.register path outcome) l

def load (source : Source) (l : Loader) (paths : List Bytes) : Loader :=
  l.registerAll (paths.map fun path => (path, outcome source path))

def accepts (l : Loader) (path : Bytes) : Bool := (l.accepted.lookup path).isSome

def documents (l : Loader) : List Binding := l.order.filterMap (l.accepted.lookup ·)

def catalog (l : Loader) : Catalog := .ofDocuments l.documents

def diagnostics (l : Loader) : List Diagnostic :=
  l.order.flatMap fun path => (l.refused.lookup path).getD []

end Loader
end DeviceTree
