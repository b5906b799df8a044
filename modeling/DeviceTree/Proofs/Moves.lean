import DeviceTree.Proofs.Store
import DeviceTree.Tree.Merge

namespace DeviceTree

structure Vocabulary where
  name : Bytes → Prop
  label : Bytes → Prop
  property : PropertyDecl → Prop

namespace Vocabulary

def unrestricted : Vocabulary := ⟨fun _ => True, fun _ => True, fun _ => True⟩

def Heads (v : Vocabulary) (head : NodeHead) : Prop := ∀ l ∈ head.labels, v.label l.name

def Covers (v : Vocabulary) : List Statement → Prop
  | [] => True
  | .property decl :: rest => v.property decl ∧ Covers v rest
  | .node head body :: rest =>
    (v.Heads head ∧ v.name head.heading.nodeName ∧ Covers v body) ∧ Covers v rest
  | .delete _ :: rest => Covers v rest

def CoversItem (v : Vocabulary) : Item → Prop
  | .node decl =>
    v.Heads decl.head ∧ (∀ name, decl.head.heading = .name name → name ≠ utf8 "/" → v.name name) ∧
      v.Covers decl.body
  | _ => True

theorem covers_unrestricted (stmts : List Statement) : unrestricted.Covers stmts := by
  fun_induction Covers unrestricted stmts with
  | case1 => trivial
  | case2 decl rest ih => exact ⟨trivial, ih⟩
  | case3 head body rest ihBody ihRest => exact ⟨⟨fun _ _ => trivial, trivial, ihBody⟩, ihRest⟩
  | case4 d rest ih => exact ih

theorem coversItem_unrestricted (i : Item) : unrestricted.CoversItem i := by
  cases i with
  | node decl => exact ⟨fun _ _ => trivial, fun _ _ _ => trivial, covers_unrestricted decl.body⟩
  | _ => trivial

end Vocabulary

def Finding.Plain (f : Finding) : Prop := ∀ label node file line, f ≠ .labelMoved label node file line

theorem Finding.plain_notLoaded (path : Bytes) : (Finding.notLoaded path).Plain := nofun

theorem Finding.plain_includeCycle (paths : List Bytes) : (Finding.includeCycle paths).Plain := nofun

namespace Merge

-- How a merge comes by a node that is there.
inductive Locates (m : Merge) : Nat → Prop where
  | root : Locates m Store.rootId
  | child {p c : Nat} {name : Bytes} (found : m.store.childNamed? p name = some c) : Locates m c
  | target {t : Target} {id : Nat} (found : m.lookup t = some id) : Locates m id

inductive Move (v : Vocabulary) : Merge → Merge → Prop where
  | note (m : Merge) (files : List Bytes) {more : List Diagnostic} (plain : ∀ d ∈ more, d.finding.Plain) :
      Move v m { m with files, diagnostics := m.diagnostics ++ more }
  | orphan (m : Merge) (file : Bytes) (decl : NodeDecl) : Move v m (m.openBlock file decl none).2
  | block {m : Merge} (file : Bytes) {decl : NodeDecl} {id : Nat} (found : m.Locates id)
      (heads : v.Heads decl.head) : Move v m (m.openBlock file decl (some id)).2
  | grow {m : Merge} (file : Bytes) {decl : NodeDecl} {id : Nat} {name : Bytes}
      (known : id < m.store.nodes.size) (missing : m.store.childNamed? id name = none)
      (spelled : v.name name) (heads : v.Heads decl.head) :
      Move v m ({ m with store := (m.store.child id name).2 }.openBlock file decl (some m.store.nodes.size)).2
  | set {m : Merge} {id : Nat} (known : id < m.store.nodes.size) {p : Property} (spelled : v.property p.decl) :
      Move v m (m.setProperty (some id) p)
  | erase {m : Merge} {id : Nat} (known : id < m.store.nodes.size) (name : Bytes) :
      Move v m (m.eraseProperty id name)
  | delete {m : Merge} (file : Bytes) (d : Delete) {id p : Nat} (found : m.Locates id)
      (parent : (m.store.node id).parent = some p) : Move v m (m.deleteNode file d (some id))

abbrev Moves (v : Vocabulary) : Merge → Merge → Prop := Relation.ReflTransGen (Move v)

theorem Move.report {v : Vocabulary} (m : Merge) (file : Bytes) (range : Range) {finding : Finding}
    (plain : finding.Plain) : Move v m (m.report file range finding) :=
  .note m m.files (List.forall_mem_singleton.mpr plain)

theorem fragments_mark (ids : List FragmentId) (fragments : Array Fragment) (i : Nat) :
    (ids.foldl (fun fragments f => fragments.modify f fun f => { f with deleted := true }) fragments)[i]? =
      (fragments[i]?).map fun f => if i ∈ ids then { f with deleted := true } else f := by
  induction ids generalizing fragments with
  | nil => simp
  | cons id rest ih =>
    rw [List.foldl_cons, ih, Array.getElem?_modify]
    by_cases equal : id = i
    · subst id
      cases fragments[i]? with
      | none => simp
      | some f => by_cases again : i ∈ rest <;> simp [again]
    · simp [equal, Ne.symm equal]

theorem store_retire (m : Merge) (id : NodeId) : (m.retire id).store = m.store := rfl

theorem store_retireAll (ids : List NodeId) (m : Merge) : (ids.foldl retire m).store = m.store := by
  induction ids generalizing m with
  | nil => rfl
  | cons id rest ih => rw [List.foldl_cons, ih, store_retire]

theorem fragments_retireAll (ids : List NodeId) (m : Merge) (i : Nat) :
    (ids.foldl retire m).fragments[i]? =
      (m.fragments[i]?).map fun f =>
        if ∃ n ∈ ids, i ∈ (m.store.node n).fragments then { f with deleted := true } else f := by
  induction ids generalizing m with
  | nil => simp
  | cons id rest ih =>
    rw [List.foldl_cons, ih, store_retire]
    simp only [retire, fragments_mark, Option.map_map, List.exists_mem_cons_iff]
    congr 1
    funext f
    by_cases here : i ∈ (m.store.node id).fragments <;>
      by_cases later : ∃ n ∈ rest, i ∈ (m.store.node n).fragments <;> simp [here, later]

theorem mem_labels_retireAll (ids : List NodeId) (m : Merge) (o : LabelOwner) :
    o ∈ (ids.foldl retire m).labels ↔
      o ∈ m.labels ∧ ¬ (o.node ∈ ids ∧ o.name ∈ (m.store.node o.node).labels) := by
  induction ids generalizing m with
  | nil => simp
  | cons id rest ih =>
    rw [List.foldl_cons, ih, store_retire]
    simp only [retire, List.mem_filter, List.mem_cons]
    by_cases here : o.node = id
    · subst here
      by_cases labelled : o.name ∈ (m.store.node o.node).labels <;> simp [labelled]
    · simp [here]

end Merge
end DeviceTree
