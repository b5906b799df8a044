import DeviceTree.Binding.Basic

namespace DeviceTree

def documentName (path : Bytes) : Bytes :=
  (path.reverse.takeWhile fun b => b != 0x2f && b != 0x5c).reverse

namespace Binding

def depth : Binding → Nat
  | ⟨_, _, _, _, _, _, _, _, none⟩ => 1
  | ⟨_, _, _, _, _, _, _, _, some child⟩ => child.depth + 1

-- Of two documents with one name the later counts.
def findDocument (documents : List Binding) (name : Bytes) : Option Binding :=
  documents.reverse.find? fun d => documentName d.file = documentName name

-- What is declared wins over what is inherited.
def inheritEntries (own base : List (Bytes × α)) : List (Bytes × α) :=
  own ++ base.filter fun (key, _) => (own.lookup key).isNone

def inherit (b base : Binding) : Binding :=
  { b with
    properties := inheritEntries b.properties base.properties
    cells := inheritEntries b.cells base.cells
    child := b.child.orElse fun _ => base.child
    description := if b.description = [] then base.description else b.description
    buses := if b.buses = [] then base.buses else b.buses
    onBus := if b.onBus = [] then base.onBus else b.onBus }

-- A document with all that it includes. `active` holds the documents that are being
-- expanded; an include of one of them adds nothing.
def expand (documents : List Binding) : (fuel : Nat) → (active : List Bytes) → Binding → Binding
  | 0, _, b => b
  | fuel + 1, active, b =>
    let own := { b with child := b.child.map (expand documents fuel active) }
    let active := b.file :: active
    b.includes.foldl (fun out name =>
      match findDocument documents name with
      | some base =>
        if active.elem base.file then out else out.inherit (expand documents fuel active base)
      | none => out) own

end Binding

structure Catalog where
  bindings : List Binding

namespace Catalog

def empty : Catalog := ⟨[]⟩

-- Every step of an expansion goes to a child binding or to a document that is not active,
-- so the depths of all documents bound the steps.
def ofDocuments (documents : List Binding) : Catalog :=
  let fuel := (documents.map Binding.depth).foldr (· + ·) 1
  ⟨documents.map (Binding.expand documents fuel [])⟩

def candidates (c : Catalog) (compatible : Bytes) : List Binding :=
  if compatible = [] then [] else c.bindings.filter (·.compatible = compatible)

-- A binding for one of the buses comes first, then one for no bus in particular.
def resolveOnBus (c : Catalog) (compatible : Bytes) (buses : List Bytes) : Option Binding :=
  let found := c.candidates compatible
  match found.find? (fun b => buses.elem b.onBus) with
  | some b => some b
  | none =>
    match found.find? (·.onBus = []) with
    | some b => some b
    | none => found.head?

def resolve (c : Catalog) (compatible : Bytes) : Option Binding := c.resolveOnBus compatible []

end Catalog
end DeviceTree
