import DeviceTree.Proofs.Merging
import DeviceTree.Proofs.Outline

namespace DeviceTree

def Node.place (n : Node) : Bytes × Bytes × Option NodeId := (n.name, n.path, n.parent)

structure Node.Worded (v : Vocabulary) (n : Node) : Prop where
  labels : ∀ l ∈ n.labels, v.label l
  single : n.labels.Nodup
  properties : ∀ p ∈ n.properties, v.property p.decl
  settled : (n.properties.map Property.name).Nodup

theorem Node.Worded.of_parts {v : Vocabulary} {n k : Node} (worded : n.Worded v) (labels : k.labels = n.labels)
    (properties : k.properties = n.properties) : k.Worded v := by
  obtain ⟨proper, single, spelled, settled⟩ := worded
  exact ⟨labels ▸ proper, labels ▸ single, properties ▸ spelled, properties ▸ settled⟩

namespace PropertyList

theorem mem_set {p q : Property} {props : PropertyList} (member : q ∈ set p props) : q = p ∨ q ∈ props := by
  induction props with
  | nil => exact .inl (List.mem_singleton.mp member)
  | cons r rest ih =>
    rw [set] at member
    split at member
    · rcases List.mem_cons.mp member with first | later
      · exact .inl first
      · exact .inr (List.mem_cons_of_mem _ later)
    · rcases List.mem_cons.mp member with first | later
      · exact .inr (first ▸ List.mem_cons_self)
      · rcases ih later with new | old
        · exact .inl new
        · exact .inr (List.mem_cons_of_mem _ old)

theorem names_set (p : Property) (props : PropertyList) :
    (set p props).map Property.name = if p.name ∈ props.map Property.name then props.map Property.name
      else props.map Property.name ++ [p.name] := by
  induction props with
  | nil => rfl
  | cons q rest ih =>
    rw [set]
    by_cases same : q.name = p.name
    · simp [same]
    · simp only [same, if_false, List.map_cons, ih, List.mem_cons, Ne.symm same, false_or]
      split <;> simp

theorem set_append {front : PropertyList} {p : Property} (passed : p.name ∉ front.map Property.name) (rest : PropertyList) :
    set p (front ++ rest) = front ++ set p rest := by
  induction front with
  | nil => rfl
  | cons q front ih =>
    rw [List.map_cons, List.mem_cons, not_or] at passed
    rw [List.cons_append, set, if_neg (Ne.symm passed.1), ih passed.2, List.cons_append]

theorem set_fresh {p : Property} {props : PropertyList} (fresh : p.name ∉ props.map Property.name) :
    set p props = props ++ [p] := by
  have last := set_append fresh []
  rwa [List.append_nil] at last

theorem nodup_set {p : Property} {props : PropertyList} (settled : (props.map Property.name).Nodup) :
    ((set p props).map Property.name).Nodup := by
  rw [names_set]
  split
  · exact settled
  · rename_i fresh
    exact settled.append (List.nodup_singleton _) (List.disjoint_singleton.mpr fresh)

theorem erase_sublist (props : PropertyList) (name : Bytes) : (props.erase name).Sublist props := List.eraseP_sublist

end PropertyList

theorem Store.each_modify {P : Node → Prop} {s : Store} (each : ∀ i : Nat, P (s.node i)) (id : Nat) {f : Node → Node}
    (kept : ∀ n, P n → P (f n)) (i : Nat) : P ((s.modify id f).node i) := by
  by_cases same : i = id
  · subst same
    by_cases known : i < s.nodes.size
    · rw [node_modify_self s i f known]
      exact kept _ (each i)
    · have beyond := each i
      rw [node_beyond s i (Nat.not_lt.mp known)] at beyond
      rw [node_beyond _ i (by rw [size_modify]; exact Nat.not_lt.mp known)]
      exact beyond
  · rw [node_modify_other s id i f same]
    exact each i

namespace Merge

def Worded (v : Vocabulary) (m : Merge) : Prop := ∀ id : Nat, (m.store.node id).Worded v

theorem addLabel_worded {v : Vocabulary} {m : Merge} (worded : Worded v m) (file : Bytes) (id : Nat) {l : Label}
    (proper : v.label l.name) : Worded v (m.addLabel file id l) := by
  have lost : Worded v (m.loseLabel file id l) := by
    unfold loseLabel
    split
    · split
      · exact worded
      · refine Store.each_modify worded _ ?_
        intro n before
        exact ⟨fun x member => before.labels x (List.mem_of_mem_erase member), before.single.erase _, before.properties,
          before.settled⟩
    · exact worded
  rw [addLabel_eq]
  refine Store.each_modify lost id ?_
  intro n before
  split
  · exact before
  · rename_i fresh
    refine ⟨?_, ?_, before.properties, before.settled⟩
    · intro x member
      rcases List.mem_append.mp member with old | new
      · exact before.labels x old
      · exact List.mem_singleton.mp new ▸ proper
    · simp only [List.elem_eq_contains, List.contains_iff_mem] at fresh
      exact before.single.append (List.nodup_singleton _) (List.disjoint_singleton.mpr fresh)

theorem openBlock_worded {v : Vocabulary} {m : Merge} (worded : Worded v m) (file : Bytes) {decl : NodeDecl} (id : Nat)
    (heads : v.Heads decl.head) : Worded v (m.openBlock file decl (some id)).2 := by
  rw [openBlock_some]
  have opened : Worded v (m.addBlock file decl id) :=
    Store.each_modify worded id fun n before => before.of_parts rfl rfl
  refine List.foldlRecOn decl.head.labels _ opened ?_
  intro k before l member
  exact addLabel_worded before file id (heads l member)

theorem grow_worded {v : Vocabulary} {m : Merge} {id : Nat} {name : Bytes} (missing : m.store.childNamed? id name = none)
    (known : id < m.store.nodes.size) (worded : Worded v m) : Worded v { m with store := (m.store.child id name).2 } := by
  intro i
  by_cases fresh : i = m.store.nodes.size
  · subst fresh
    rw [Store.node_child_new missing known]
    exact ⟨by simp, List.nodup_nil, by simp, List.nodup_nil⟩
  · exact (worded i).of_parts (Store.node_child_keeps missing known fresh Node.labels fun _ _ _ => rfl)
      (Store.node_child_keeps missing known fresh Node.properties fun _ _ _ => rfl)

theorem Move.worded {v : Vocabulary} {m n : Merge} (move : Move v m n) (valid : Valid m) (worded : Worded v m) :
    Worded v n := by
  cases move with
  | note files plain => exact worded
  | orphan file decl => exact worded
  | block file found heads => exact openBlock_worded worded file _ heads
  | @grow file decl id name known missing spelled heads =>
    exact openBlock_worded (grow_worded missing known worded) file _ heads
  | @set id known p spelled =>
    refine Store.each_modify worded id ?_
    intro n before
    refine ⟨before.labels, before.single, ?_, PropertyList.nodup_set before.settled⟩
    intro q member
    rcases PropertyList.mem_set member with rfl | old
    · exact spelled
    · exact before.properties q old
  | @erase id known name =>
    refine Store.each_modify worded id ?_
    intro n before
    have shorter := PropertyList.erase_sublist n.properties name
    exact ⟨before.labels, before.single, fun q member => before.properties q (shorter.subset member),
      (shorter.map Property.name).nodup before.settled⟩
  | @delete file d id p found parent =>
    have edge := found.edge valid parent
    intro i
    rw [store_deleteNode valid edge]
    exact (worded i).of_parts (labels_node_detach valid edge i)
      (Store.node_detach_keeps valid.shaped edge i Node.properties fun _ _ _ => rfl)

-- Where a node was made is never changed.

theorem place_openBlock (m : Merge) (file : Bytes) (decl : NodeDecl) (id i : Nat) :
    ((m.openBlock file decl (some id)).2.store.node i).place = (m.store.node i).place := by
  have labelled : ∀ (k : Merge) (l : Label), ((k.addLabel file id l).store.node i).place = (k.store.node i).place := by
    intro k l
    have lost : ((k.loseLabel file id l).store.node i).place = (k.store.node i).place := by
      unfold loseLabel
      split
      · split
        · rfl
        · exact Store.node_modify_keeps k.store _ i _ Node.place fun _ => rfl
      · rfl
    rw [addLabel_eq, ← lost]
    refine Store.node_modify_keeps _ id i _ Node.place ?_
    intro n
    split <;> rfl
  have all : ∀ (labels : List Label) (k : Merge),
      ((labels.foldl (fun m l => m.addLabel file id l) k).store.node i).place = (k.store.node i).place := by
    intro labels
    induction labels with
    | nil => exact fun _ => rfl
    | cons l rest ih => exact fun k => (ih (k.addLabel file id l)).trans (labelled k l)
  rw [openBlock_some, all]
  exact Store.node_modify_keeps m.store id i _ Node.place fun _ => rfl

theorem Move.place {v : Vocabulary} {m n : Merge} (move : Move v m n) (valid : Valid m) {i : Nat}
    (known : i < m.store.nodes.size) : (n.store.node i).place = (m.store.node i).place := by
  cases move with
  | note files plain => rfl
  | orphan file decl => rfl
  | block file found heads => exact place_openBlock m file _ _ i
  | grow file inside missing spelled heads =>
    rw [place_openBlock]
    exact Store.node_child_keeps missing inside (Nat.ne_of_lt known) Node.place fun _ _ _ => rfl
  | set inside spelled => exact Store.node_modify_keeps m.store _ i _ Node.place fun _ => rfl
  | erase inside name => exact Store.node_modify_keeps m.store _ i _ Node.place fun _ => rfl
  | delete file d found parent =>
    have edge := found.edge valid parent
    rw [store_deleteNode valid edge]
    exact Store.node_detach_keeps valid.shaped edge i Node.place fun _ _ _ => rfl

structure Placed (v : Vocabulary) (m : Merge) : Prop where
  root : (m.store.node Store.rootId).place = (utf8 "/", utf8 "/", none)
  named : ∀ i : Nat, 0 < i → i < m.store.nodes.size → v.name (m.store.node i).name
  paths : ∀ i p : Nat, 0 < i → i < m.store.nodes.size → (m.store.node i).parent = some p →
    (m.store.node i).path = (m.store.node p).path ++ (m.store.node i).name ++ utf8 "/"

-- The one node that a move can add is named by its declaration and stands under its parent.
theorem Move.added {v : Vocabulary} {m n : Merge} (move : Move v m n) (valid : Valid m) {i : Nat}
    (new : m.store.nodes.size ≤ i) (known : i < n.store.nodes.size) :
    v.name (n.store.node i).name ∧ ∃ p : Nat, p < m.store.nodes.size ∧ (n.store.node i).parent = some p ∧
      (n.store.node i).path = (m.store.node p).path ++ (n.store.node i).name ++ utf8 "/" := by
  cases move with
  | note files plain => exact absurd known (Nat.not_lt.mpr new)
  | orphan file decl => exact absurd known (Nat.not_lt.mpr new)
  | block file found heads =>
    rw [size_openBlock] at known
    exact absurd known (Nat.not_lt.mpr new)
  | @grow file decl id name inside missing spelled heads =>
    rw [size_openBlock, Store.size_child missing] at known
    have equal : i = m.store.nodes.size := by omega
    subst equal
    have place := place_openBlock { m with store := (m.store.child id name).2 } file decl m.store.nodes.size m.store.nodes.size
    rw [Store.node_child_new missing inside] at place
    obtain ⟨named, path, parent⟩ := Prod.mk.inj place |>.imp_right Prod.mk.inj
    rw [named, path, parent]
    exact ⟨spelled, id, inside, rfl, rfl⟩
  | set inside spelled =>
    rw [(quiet_setProperty m _ _).alike.size] at known
    exact absurd known (Nat.not_lt.mpr new)
  | erase inside name =>
    rw [(quiet_eraseProperty m _ _).alike.size] at known
    exact absurd known (Nat.not_lt.mpr new)
  | delete file d found parent =>
    have edge := found.edge valid parent
    rw [store_deleteNode valid edge, Store.size_detach valid.shaped edge] at known
    exact absurd known (Nat.not_lt.mpr new)

theorem Move.placed {v : Vocabulary} {m n : Merge} (move : Move v m n) (valid : Valid m) (placed : Placed v m) :
    Placed v n := by
  have same : ∀ i : Nat, i < m.store.nodes.size → (n.store.node i).name = (m.store.node i).name ∧
      (n.store.node i).path = (m.store.node i).path ∧ (n.store.node i).parent = (m.store.node i).parent := by
    intro i known
    exact Prod.mk.inj (move.place valid known) |>.imp_right Prod.mk.inj
  refine ⟨?_, ?_, ?_⟩
  · exact (move.place valid valid.shaped.nonempty).trans placed.root
  · intro i positive known
    by_cases old : i < m.store.nodes.size
    · rw [(same i old).1]
      exact placed.named i positive old
    · exact (move.added valid (Nat.not_lt.mp old) known).1
  · intro i p positive known parent
    by_cases old : i < m.store.nodes.size
    · obtain ⟨name, path, above⟩ := same i old
      rw [above] at parent
      obtain ⟨q, smaller, again⟩ := valid.shaped.parent i positive old
      cases Option.some.inj (parent.symm.trans again)
      rw [name, path, (same p (Nat.lt_trans smaller old)).2.1]
      exact placed.paths i p positive old parent
    · obtain ⟨-, q, inside, above, path⟩ := move.added valid (Nat.not_lt.mp old) known
      cases Option.some.inj (parent.symm.trans above)
      rw [path, (same p inside).2.1]

structure Lettered (m : Merge) : Prop where
  unique : (m.labels.map LabelOwner.name).Nodup
  held : ∀ id : Nat, m.store.Reachable id → ∀ x ∈ (m.store.node id).labels, ∃ o ∈ m.labels, o.name = x ∧ o.node = id

theorem owner_of_mem {m : Merge} (unique : (m.labels.map LabelOwner.name).Nodup) {o : LabelOwner} (present : o ∈ m.labels) :
    m.owner? o.name = some o := by
  cases found : m.owner? o.name with
  | none => simpa using List.find?_eq_none.mp found o present
  | some p =>
    have same : p.name = o.name := by simpa using List.find?_some found
    rw [List.inj_on_of_nodup_map unique (List.mem_of_find?_eq_some found) present same]

theorem mem_of_loseLabel {m : Merge} {file : Bytes} {id : Nat} {l : Label} {i : Nat} {x : Bytes}
    (present : x ∈ ((m.loseLabel file id l).store.node i).labels) : x ∈ (m.store.node i).labels := by
  unfold loseLabel at present
  split at present
  · rename_i owner _
    split at present
    · exact present
    · by_cases same : i = owner.node
      · subst same
        by_cases known : owner.node < m.store.nodes.size
        · rw [Store.node_modify_self _ _ _ known] at present
          exact List.mem_of_mem_erase present
        · rw [Store.node_beyond _ _ (by rw [Store.size_modify]; exact Nat.not_lt.mp known)] at present
          cases present
      · rw [Store.node_modify_other _ _ _ _ same] at present
        exact present
  · exact present

theorem lost_label {m : Merge} (file : Bytes) {id : Nat} {l : Label} {o : LabelOwner} (owner : m.owner? l.name = some o)
    (other : o.node ≠ id) (single : (m.store.node o.node).labels.Nodup) :
    l.name ∉ ((m.loseLabel file id l).store.node o.node).labels := by
  simp only [loseLabel, owner, other, if_false]
  by_cases known : o.node < m.store.nodes.size
  · rw [Store.node_modify_self _ _ _ known]
    exact single.not_mem_erase
  · rw [Store.node_beyond _ _ (by rw [Store.size_modify]; exact Nat.not_lt.mp known)]
    simp [Node.root]

theorem labels_addLabel {m : Merge} (single : ∀ i : Nat, (m.store.node i).labels.Nodup) (lettered : Lettered m)
    (file : Bytes) (id : Nat) (l : Label) {i : Nat} (reached : m.store.Reachable i) {x : Bytes}
    (present : x ∈ ((m.addLabel file id l).store.node i).labels) :
    x ∈ (m.store.node i).labels ∧ x ≠ l.name ∨ x = l.name ∧ i = id := by
  rw [addLabel_eq] at present
  have gained : x ∈ ((m.loseLabel file id l).store.node i).labels ∨ x = l.name ∧ i = id := by
    by_cases same : i = id
    · subst same
      by_cases known : i < (m.loseLabel file i l).store.nodes.size
      · simp only [gainLabel, Store.node_modify_self _ _ _ known] at present
        split at present
        · exact .inl present
        · rcases List.mem_append.mp present with old | new
          · exact .inl old
          · exact .inr ⟨List.mem_singleton.mp new, rfl⟩
      · rw [Store.node_beyond _ _ (by simpa [gainLabel, Store.size_modify] using known)] at present
        cases present
    · simp only [gainLabel, Store.node_modify_other _ _ _ _ same] at present
      exact .inl present
  rcases gained with kept | new
  · by_cases differ : x = l.name
    · by_cases same : i = id
      · exact .inr ⟨differ, same⟩
      · obtain ⟨o, listed, named, rfl⟩ := lettered.held i reached x (mem_of_loseLabel kept)
        have owner := owner_of_mem lettered.unique listed
        rw [named, differ] at owner
        rw [differ] at kept
        exact absurd kept (lost_label file owner same (single o.node))
    · exact .inl ⟨mem_of_loseLabel kept, differ⟩
  · exact .inr new

theorem addLabel_lettered {m : Merge} (single : ∀ i : Nat, (m.store.node i).labels.Nodup) (lettered : Lettered m)
    (file : Bytes) (id : Nat) (l : Label) : Lettered (m.addLabel file id l) where
  unique := by
    have labels : (m.addLabel file id l).labels = m.labels.filter (·.name != l.name) ++ [⟨l.name, id, file, l.range⟩] := by
      rw [addLabel_eq, gainLabel, labels_loseLabel]
    rw [labels, List.map_append]
    refine ((List.filter_sublist.map _).nodup lettered.unique).append (List.nodup_singleton _) ?_
    rw [List.map_singleton, List.disjoint_singleton]
    simp
  held i reached x present := by
    rw [(quiet_addLabel m file id l).alike.reachable] at reached
    rcases labels_addLabel single lettered file id l reached present with ⟨old, differ⟩ | ⟨rfl, rfl⟩
    · obtain ⟨o, listed, rfl, node⟩ := lettered.held i reached x old
      exact ⟨o, (mem_addLabel m file id l o).mpr (.inl ⟨listed, differ⟩), rfl, node⟩
    · exact ⟨_, (mem_addLabel m file i l _).mpr (.inr rfl), rfl, rfl⟩

theorem openBlock_lettered {v : Vocabulary} {m : Merge} (worded : Worded v m) (lettered : Lettered m) (file : Bytes)
    {decl : NodeDecl} (id : Nat) (heads : v.Heads decl.head) : Lettered (m.openBlock file decl (some id)).2 := by
  rw [openBlock_some]
  have keeps : ∀ i, ((m.addBlock file decl id).store.node i).labels = (m.store.node i).labels :=
    fun i => Store.node_modify_keeps m.store id i _ Node.labels fun _ => rfl
  have opened : Lettered (m.addBlock file decl id) := by
    refine ⟨lettered.unique, ?_⟩
    intro i reached x present
    rw [(alike_addBlock m file decl id).reachable] at reached
    rw [keeps] at present
    exact lettered.held i reached x present
  have start : Worded v (m.addBlock file decl id) ∧ Lettered (m.addBlock file decl id) :=
    ⟨Store.each_modify worded id fun n before => before.of_parts rfl rfl, opened⟩
  have all : Worded v (decl.head.labels.foldl (fun m l => m.addLabel file id l) (m.addBlock file decl id)) ∧
      Lettered (decl.head.labels.foldl (fun m l => m.addLabel file id l) (m.addBlock file decl id)) := by
    refine List.foldlRecOn (motive := fun k => Worded v k ∧ Lettered k) decl.head.labels _ start ?_
    intro k before l member
    exact ⟨addLabel_worded before.1 file id (heads l member),
      addLabel_lettered (fun i => (before.1 i).single) before.2 file id l⟩
  exact all.2

theorem retireAll_sublist (ids : List NodeId) (m : Merge) : (ids.foldl retire m).labels.Sublist m.labels := by
  induction ids generalizing m with
  | nil => exact List.Sublist.refl _
  | cons id rest ih => exact (ih (m.retire id)).trans List.filter_sublist

theorem Move.lettered {v : Vocabulary} {m n : Merge} (move : Move v m n) (valid : Valid m) (worded : Worded v m)
    (lettered : Lettered m) : Lettered n := by
  cases move with
  | note files plain => exact ⟨lettered.unique, lettered.held⟩
  | orphan file decl => exact ⟨lettered.unique, lettered.held⟩
  | block file found heads => exact openBlock_lettered worded lettered file _ heads
  | @grow file decl id name inside missing spelled heads =>
    have grown : Worded v { m with store := (m.store.child id name).2 } := grow_worded missing inside worded
    refine openBlock_lettered grown ⟨lettered.unique, ?_⟩ file _ heads
    intro i reached x present
    by_cases fresh : i = m.store.nodes.size
    · subst fresh
      rw [Store.node_child_new missing inside] at present
      cases present
    · rw [Store.node_child_keeps missing inside fresh Node.labels fun _ _ _ => rfl] at present
      have known := (valid.shaped.grow missing inside).below_known (valid.shaped.grow missing inside).nonempty reached
      rw [Store.size_child missing] at known
      exact lettered.held i (Store.reachable_of_grow missing valid.shaped inside (by omega) reached) x present
  | @set id known p spelled =>
    refine ⟨lettered.unique, ?_⟩
    intro i reached x present
    rw [(quiet_setProperty m id p).alike.reachable] at reached
    refine lettered.held i reached x ?_
    have same := Store.node_modify_keeps m.store id i (fun n => { n with properties := n.properties.set p }) Node.labels
      fun _ => rfl
    exact same ▸ present
  | @erase id known name =>
    refine ⟨lettered.unique, ?_⟩
    intro i reached x present
    rw [(quiet_eraseProperty m id name).alike.reachable] at reached
    refine lettered.held i reached x ?_
    have same := Store.node_modify_keeps m.store id i (fun n => { n with properties := n.properties.erase name }) Node.labels
      fun _ => rfl
    exact same ▸ present
  | @delete file d id p found parent =>
    have edge := found.edge valid parent
    refine ⟨?_, ?_⟩
    · rw [deleteNode_eq valid edge]
      exact ((retireAll_sublist _ _).map _).nodup lettered.unique
    · intro i reached x present
      rw [store_deleteNode valid edge, Store.reachable_detach valid.shaped edge] at reached
      rw [store_deleteNode valid edge, labels_node_detach valid edge] at present
      obtain ⟨o, listed, named, rfl⟩ := lettered.held i reached.1 x present
      exact ⟨o, (mem_labels_deleteNode valid edge file d o).mpr ⟨listed, reached.2⟩, named, rfl⟩

structure Lawful (v : Vocabulary) (m : Merge) : Prop where
  valid : Valid m
  worded : Worded v m
  placed : Placed v m
  lettered : Lettered m

theorem empty_lawful (v : Vocabulary) : Lawful v Merge.empty where
  valid := empty_valid
  worded i := by
    have root : Store.empty.node i = Node.root := by cases i <;> rfl
    rw [Merge.empty, root]
    exact ⟨by simp [Node.root], List.nodup_nil, by simp [Node.root], List.nodup_nil⟩
  placed := by
    refine ⟨rfl, ?_, ?_⟩
    · intro i positive known
      simp [Merge.empty, Store.empty] at known
      omega
    · intro i p positive known
      simp [Merge.empty, Store.empty] at known
      omega
  lettered := by
    refine ⟨List.nodup_nil, ?_⟩
    intro i _ x present
    have root : Store.empty.node i = Node.root := by cases i <;> rfl
    rw [Merge.empty, root] at present
    cases present

theorem Moves.lawful {v : Vocabulary} {m n : Merge} (moves : Moves v m n) (lawful : Lawful v m) : Lawful v n := by
  induction moves with
  | refl => exact lawful
  | tail _ move ih =>
    exact ⟨move.valid ih.valid, move.worded ih.valid ih.worded, move.placed ih.valid ih.placed,
      move.lettered ih.valid ih.worded ih.lettered⟩

theorem Lawful.pathed {v : Vocabulary} {m : Merge} (lawful : Lawful v m) : m.store.Pathed := by
  intro p c edge
  obtain ⟨larger, known, parent⟩ := lawful.valid.shaped.child p c edge
  exact lawful.placed.paths c p (Nat.zero_lt_of_lt larger) known parent

end Merge

-- A walk meets every node once, so the labels of all nodes differ.

namespace Store

theorem Shaped.below_linear {s : Store} (shaped : s.Shaped) {a b x : Nat} (one : s.Below a x) (two : s.Below b x) :
    s.Below a b ∨ s.Below b a := by
  induction one with
  | refl => exact .inr two
  | @tail q y chain edge ih =>
    cases two with
    | refl => exact .inl (chain.tail edge)
    | @tail q' _ other edge' =>
      have same := (shaped.child q y edge).2.2.symm.trans (shaped.child q' y edge').2.2
      exact ih (Option.some.inj same ▸ other)

theorem Shaped.siblings_apart {s : Store} (shaped : s.Shaped) {p c d : Nat} (one : s.Edge p c) (two : s.Edge p d)
    (chain : s.Below c d) : c = d := by
  cases chain with
  | refl => rfl
  | @tail q _ above edge =>
    have same := (shaped.child q d edge).2.2.symm.trans (shaped.child p d two).2.2
    have low := shaped.below_le (Option.some.inj same ▸ above)
    exact absurd (shaped.child p c one).1 (Nat.not_lt.mpr low)

theorem Shaped.nodup_below {s : Store} (shaped : s.Shaped) (fuel id : Nat) : (s.below fuel id).Nodup := by
  induction fuel generalizing id with
  | zero => exact List.nodup_nil
  | succ fuel ih =>
    rw [below, List.nodup_cons, List.nodup_flatMap]
    refine ⟨?_, fun c _ => ih c, ?_⟩
    · intro member
      obtain ⟨c, edge, met⟩ := List.mem_flatMap.mp member
      have low := shaped.below_le (below_of_mem s fuel c id met)
      exact absurd (shaped.child id c edge).1 (Nat.not_lt.mpr low)
    · refine (shaped.distinct id).pairwise_of_forall_ne ?_
      intro c one d two differ x left right
      rcases shaped.below_linear (below_of_mem s fuel c x left) (below_of_mem s fuel d x right) with down | down
      · exact differ (shaped.siblings_apart one two down)
      · exact differ (shaped.siblings_apart two one down).symm

end Store

namespace Outline

mutual

def labels : Outline → List Bytes
  | .node e children => e.labels ++ labelsIn children

def labelsIn : List Outline → List Bytes
  | [] => []
  | o :: rest => o.labels ++ labelsIn rest

end

mutual

def Tidy : Outline → Prop
  | .node _ children => (children.map (·.entry.name)).Nodup ∧ TidyIn children

def TidyIn : List Outline → Prop
  | [] => True
  | o :: rest => o.Tidy ∧ TidyIn rest

end

mutual

theorem labels_listing (path : Bytes) : (o : Outline) → o.labels = (o.listing path).flatMap (·.2.labels)
  | .node e children => by rw [labels, listing, List.flatMap_cons, labels_listings path children]

theorem labels_listings (path : Bytes) : (os : List Outline) → labelsIn os = (listings path os).flatMap (·.2.labels)
  | [] => rfl
  | o :: rest => by rw [labelsIn, listings, List.flatMap_append, labels_listing _ o, labels_listings path rest]

end

theorem tidyIn_iff (os : List Outline) : TidyIn os ↔ ∀ o ∈ os, o.Tidy := by
  induction os with
  | nil => simp [TidyIn]
  | cons o rest ih => simp [TidyIn, ih]

end Outline

theorem Store.Shaped.tidy {s : Store} (shaped : s.Shaped) (fuel id : Nat) : (s.outline fuel id).Tidy := by
  induction fuel generalizing id with
  | zero => exact ⟨List.nodup_nil, trivial⟩
  | succ fuel ih =>
    rw [outline, Outline.Tidy, Outline.tidyIn_iff]
    refine ⟨?_, ?_⟩
    · have names : ((s.node id).children.map (s.outline fuel)).map (·.entry.name) =
          (s.node id).children.map fun c => (s.node c).name := by
        simp [entry_outline, Node.entry]
      rw [names]
      exact List.Nodup.map_on (fun c one d two same => shaped.named id c d one two same) (shaped.distinct id)
    · intro o member
      obtain ⟨c, -, rfl⟩ := List.mem_map.mp member
      exact ih c

theorem Merge.Lawful.labels_nodup {v : Vocabulary} {m : Merge} (lawful : Lawful v m) :
    (m.store.outline m.store.nodes.size Store.rootId).labels.Nodup := by
  have shaped := lawful.valid.shaped
  have walk := shaped.listing_outline lawful.pathed m.store.nodes.size Store.rootId shaped.nonempty (Nat.le_add_left _ _)
  rw [Outline.labels_listing, ← walk, List.flatMap_map, List.nodup_flatMap]
  refine ⟨fun i _ => (lawful.worded i).single, ?_⟩
  refine (shaped.nodup_below m.store.nodes.size Store.rootId).pairwise_of_forall_ne ?_
  intro i one j two differ x left right
  have reached := fun k met => Store.below_of_mem m.store m.store.nodes.size Store.rootId k met
  obtain ⟨o, listed, named, rfl⟩ := lawful.lettered.held i (reached i one) x left
  obtain ⟨o', listed', named', rfl⟩ := lawful.lettered.held j (reached j two) x right
  exact differ (congrArg _ (List.inj_on_of_nodup_map lawful.lettered.unique listed listed' (named.trans named'.symm)))

end DeviceTree
