import Mathlib
import DeviceTree.Proofs.Lexing
import DeviceTree.Proofs.Store

namespace DeviceTree

-- Of an integer cell with a value only the bits of the cell width count.
inductive CellView where
  | word (value : Nat)
  | raw (text : Bytes)
  | ref (target : Target)
  deriving DecidableEq, Repr

inductive ValueView where
  | string (text : Bytes)
  | bytes (data : Bytes)
  | array (width : Width) (cells : List CellView)
  | ref (target : Target)
  deriving DecidableEq, Repr

structure Setting where
  name : Bytes
  values : List ValueView
  deriving DecidableEq, Repr

structure Entry where
  name : Bytes
  labels : List Bytes
  settings : List Setting
  deriving DecidableEq, Repr

inductive Outline where
  | node (entry : Entry) (children : List Outline)

def Cell.view (width : Width) : Cell → CellView
  | .int _ _ (some v) => .word (v.toUInt64.toNat % 2 ^ width.bits)
  | .int _ raw none => .raw raw
  | .ref r => .ref r.target

def Value.view : Value → ValueView
  | .string _ text => .string text
  | .bytes _ data => .bytes data
  | .array a => .array a.width (a.cells.map (Cell.view a.width))
  | .ref r => .ref r.target

def PropertyDecl.setting (p : PropertyDecl) : Setting := ⟨p.name, p.values.map Value.view⟩

def Property.setting (p : Property) : Setting := p.decl.setting

def Node.entry (n : Node) : Entry := ⟨n.name, n.labels, n.properties.map Property.setting⟩

def CellView.text : CellView → Bytes
  | .word value => hexNumeral value
  | .raw text => text
  | .ref target => target.text

def cellsText (cells : List CellView) : Bytes := Bytes.join (utf8 " ") (cells.map CellView.text)

def bytesText (data : Bytes) : Bytes := Bytes.join (utf8 " ") (data.map fun b => Bytes.hexPadded 2 b.toNat)

def ValueView.text : ValueView → Bytes
  | .string text => Printer.string text
  | .bytes data => utf8 "[" ++ bytesText data ++ utf8 "]"
  | .array .w32 cells => utf8 "<" ++ cellsText cells ++ utf8 ">"
  | .array width cells =>
    utf8 "/bits/ " ++ Bytes.decimal width.bits ++ utf8 " " ++ (utf8 "<" ++ cellsText cells ++ utf8 ">")
  | .ref target => target.text

def valuesText (values : List ValueView) : Bytes := Bytes.join (utf8 ", ") (values.map ValueView.text)

def Setting.text (p : Setting) : Bytes :=
  match p.values with
  | [] => p.name ++ utf8 ";"
  | values => p.name ++ utf8 " = " ++ valuesText values ++ utf8 ";"

def labelsText (labels : List Bytes) : Bytes := labels.flatMap (· ++ utf8 ": ")

def settingsText (indent : Bytes) (settings : List Setting) : Bytes :=
  settings.flatMap fun p => utf8 "\n" ++ indent ++ p.text

namespace Outline

def entry : Outline → Entry
  | .node e _ => e

mutual

def text (indent : Bytes) : Outline → Bytes
  | .node e children =>
    labelsText e.labels ++ e.name ++ utf8 " \x7b" ++ settingsText (indent ++ utf8 "\t") e.settings ++
      texts (indent ++ utf8 "\t") e.settings.isEmpty children ++ utf8 "\n" ++ indent ++ utf8 "\x7d;"

def texts (indent : Bytes) (first : Bool) : List Outline → Bytes
  | [] => []
  | o :: rest =>
    (if first then utf8 "\n" else utf8 "\n\n") ++ indent ++ o.text indent ++ texts indent false rest

end

mutual

def listing (path : Bytes) : Outline → List (Bytes × Entry)
  | .node e children => (path, e) :: listings path children

def listings (path : Bytes) : List Outline → List (Bytes × Entry)
  | [] => []
  | o :: rest => o.listing (path ++ o.entry.name ++ utf8 "/") ++ listings path rest

end

mutual

def All (p : Entry → Prop) : Outline → Prop
  | .node e children => p e ∧ AllIn p children

def AllIn (p : Entry → Prop) : List Outline → Prop
  | [] => True
  | o :: rest => o.All p ∧ AllIn p rest

end

end Outline

-- A store is unrolled from a node downwards; the size of the store bounds the depth.
def Store.outline (s : Store) : (fuel : Nat) → NodeId → Outline
  | 0, id => .node (s.node id).entry []
  | fuel + 1, id => .node (s.node id).entry ((s.node id).children.map (outline s fuel))

namespace Tree

def outline (t : Tree) : Outline := t.store.outline t.store.nodes.size Store.rootId

def listing (t : Tree) : List (Bytes × Entry) := t.nodes.map fun id => ((t.node id).path, (t.node id).entry)

end Tree

theorem cell_text (width : Width) (c : Cell) : Printer.cell .evaluated width c = (c.view width).text := by
  cases c with
  | int range raw value => cases value <;> rfl
  | ref r => rfl

theorem value_text (v : Value) : Printer.value .evaluated v = v.view.text := by
  cases v with
  | string range text => rfl
  | bytes range bytes => rfl
  | ref r => rfl
  | array a =>
    have cells : a.cells.map (Printer.cell .evaluated a.width) = (a.cells.map (Cell.view a.width)).map CellView.text := by
      simp [cell_text]
    rw [Printer.value, Printer.array, cells]
    obtain ⟨range, width, cells⟩ := a
    cases width <;> rfl

theorem property_text (indent : Bytes) (p : Property) :
    Printer.property .evaluated indent p = indent ++ p.setting.text ++ utf8 "\n" := by
  obtain ⟨⟨range, nameRange, labels, name, values⟩, fragment⟩ := p
  have marks : utf8 ";\n" = utf8 ";" ++ utf8 "\n" := rfl
  cases values with
  | nil => simp [Printer.property, Setting.text, Property.setting, PropertyDecl.setting, Property.values, Property.name, marks]
  | cons v rest =>
    simp [Printer.property, Setting.text, Property.setting, PropertyDecl.setting, Property.values, Property.name, marks,
      valuesText, funext value_text, Function.comp_def]

theorem flatMap_rotate {α : Type} (line : Bytes) (f : α → Bytes) (xs : List α) :
    line ++ xs.flatMap (fun x => f x ++ line) = xs.flatMap (fun x => line ++ f x) ++ line := by
  induction xs with
  | nil => simp
  | cons x rest ih => simp only [List.flatMap_cons, List.append_assoc, ih]

theorem children_text (indent : Bytes) (write : NodeId → Bytes) (o : NodeId → Outline) (ids : List NodeId)
    (each : ∀ id ∈ ids, write id = indent ++ (o id).text indent ++ utf8 "\n") (k : Nat) (own : Bool) :
    utf8 "\n" ++ (ids.zipIdx k).flatMap (fun (c, i) => (if i > 0 || own then utf8 "\n" else []) ++ write c) =
      Outline.texts indent (k = 0 && !own) (ids.map o) ++ utf8 "\n" := by
  induction ids generalizing k with
  | nil => simp [Outline.texts]
  | cons c rest ih =>
    have later := ih (fun id member => each id (List.mem_cons_of_mem _ member)) (k + 1)
    have first := each c List.mem_cons_self
    simp only [List.zipIdx_cons, List.flatMap_cons, List.map_cons, Outline.texts, first, List.append_assoc, later]
    have lines : utf8 "\n\n" = utf8 "\n" ++ utf8 "\n" := rfl
    cases own with
    | true => simp [lines]
    | false => cases k <;> simp [lines]

namespace Store

theorem entry_outline (s : Store) (fuel id : Nat) : (s.outline fuel id).entry = (s.node id).entry := by
  cases fuel <;> rfl

theorem Shaped.node_text {s : Store} (shaped : s.Shaped) (fuel id : Nat) (known : id < s.nodes.size)
    (enough : s.nodes.size ≤ id + fuel) (indent : Bytes) :
    Printer.node .evaluated s fuel indent id = indent ++ (s.outline fuel id).text indent ++ utf8 "\n" := by
  induction fuel generalizing id indent with
  | zero => omega
  | succ fuel ih =>
    have each : ∀ c ∈ (s.node id).children, Printer.node .evaluated s fuel (indent ++ utf8 "\t") c =
        indent ++ utf8 "\t" ++ (s.outline fuel c).text (indent ++ utf8 "\t") ++ utf8 "\n" := by
      intro c edge
      obtain ⟨larger, bounded, -⟩ := shaped.child id c edge
      exact ih c bounded (by omega) (indent ++ utf8 "\t")
    have children := children_text (indent ++ utf8 "\t") _ (s.outline fuel) _ each 0 (!(s.node id).properties.isEmpty)
    have settings := flatMap_rotate (utf8 "\n") (fun p => indent ++ utf8 "\t" ++ p.text) (s.node id).entry.settings
    have properties : (s.node id).properties.flatMap (Printer.property .evaluated (indent ++ utf8 "\t")) =
        (s.node id).entry.settings.flatMap fun p => indent ++ utf8 "\t" ++ p.text ++ utf8 "\n" := by
      rw [Node.entry, List.flatMap_map]
      exact congrArg (fun f => List.flatMap f _) (funext (property_text _))
    have opens : utf8 " \x7b\n" = utf8 " \x7b" ++ utf8 "\n" := rfl
    have closes : utf8 "\x7d;\n" = utf8 "\x7d;" ++ utf8 "\n" := rfl
    have bare : (decide (0 = 0) && !!(s.node id).properties.isEmpty) = (s.node id).entry.settings.isEmpty := by
      simp [Node.entry]
    rw [bare] at children
    simp only [Printer.node, outline, Outline.text, settingsText, labelsText, properties, opens, closes, List.append_assoc]
      at children settings ⊢
    rw [← List.append_assoc (utf8 "\n") (List.flatMap _ _), settings]
    rw [List.append_assoc (List.flatMap _ _) (utf8 "\n"), ← List.append_assoc (utf8 "\n") (List.flatMap _ _), children]
    simp only [List.append_assoc, Node.entry]

def Pathed (s : Store) : Prop :=
  ∀ p c : Nat, s.Edge p c → (s.node c).path = (s.node p).path ++ (s.node c).name ++ utf8 "/"

theorem Shaped.listing_outline {s : Store} (shaped : s.Shaped) (pathed : s.Pathed) (fuel id : Nat)
    (known : id < s.nodes.size) (enough : s.nodes.size ≤ id + fuel) :
    (s.below fuel id).map (fun i => ((s.node i).path, (s.node i).entry)) =
      (s.outline fuel id).listing (s.node id).path := by
  induction fuel generalizing id with
  | zero => omega
  | succ fuel ih =>
    have each : ∀ ids : List Nat, (∀ c ∈ ids, s.Edge id c) →
        (ids.flatMap (s.below fuel)).map (fun i => ((s.node i).path, (s.node i).entry)) =
          Outline.listings (s.node id).path (ids.map (s.outline fuel)) := by
      intro ids edges
      induction ids with
      | nil => rfl
      | cons c rest later =>
        have edge := edges c List.mem_cons_self
        obtain ⟨larger, bounded, -⟩ := shaped.child id c edge
        have here := ih c bounded (by omega)
        rw [pathed id c edge] at here
        rw [List.flatMap_cons, List.map_append, here, later fun d member => edges d (List.mem_cons_of_mem _ member),
          List.map_cons, Outline.listings, entry_outline]
        rfl
    rw [below, List.map_cons, each _ fun c member => member, outline, Outline.listing]

end Store

theorem Tree.print_outline (t : Tree) (shaped : t.store.Shaped) :
    t.print .evaluated = utf8 "/dts-v1/;\n\n" ++ t.outline.text [] ++ utf8 "\n" := by
  have text := shaped.node_text t.store.nodes.size Store.rootId shaped.nonempty (Nat.le_add_left _ _) []
  rw [print, printNode, text]
  simp [outline]

theorem Tree.listing_outline (t : Tree) (shaped : t.store.Shaped) (pathed : t.store.Pathed) :
    t.listing = t.outline.listing (t.node Store.rootId).path := by
  have walk := shaped.listing_outline pathed t.store.nodes.size Store.rootId shaped.nonempty (Nat.le_add_left _ _)
  exact walk

namespace Outline

mutual

theorem all_iff (p : Entry → Prop) (path : Bytes) : (o : Outline) → (o.All p ↔ ∀ x ∈ o.listing path, p x.2)
  | .node e children => by
    rw [All, listing, List.forall_mem_cons, allIn_iff p path children]

theorem allIn_iff (p : Entry → Prop) (path : Bytes) : (os : List Outline) → (AllIn p os ↔ ∀ x ∈ listings path os, p x.2)
  | [] => by simp [AllIn, listings]
  | o :: rest => by
    rw [AllIn, listings, List.forall_mem_append, all_iff p _ o, allIn_iff p path rest]

end

end Outline

theorem Tree.all_outline (t : Tree) (shaped : t.store.Shaped) (pathed : t.store.Pathed) (p : Entry → Prop) :
    t.outline.All p ↔ ∀ id ∈ t.nodes, p (t.node id).entry := by
  rw [Outline.all_iff p (t.node Store.rootId).path, ← t.listing_outline shaped pathed, listing]
  simp

end DeviceTree
