import DeviceTree.Proofs.Statements
import DeviceTree.Proofs.Moves

namespace DeviceTree.Merge

structure Blocks (m : Merge) : Prop where
  shaped : m.store.Shaped
  listed : ∀ (i : Nat) f (n : Nat), m.fragments[i]? = some f → f.node = some n →
    n < m.store.nodes.size ∧ i ∈ (m.store.node n).fragments
  stands : ∀ (n i : Nat), i ∈ (m.store.node n).fragments → ∃ f, m.fragments[i]? = some f ∧ f.node = some n
  marked : ∀ (i : Nat) f (n : Nat), m.fragments[i]? = some f → f.node = some n → f.deleted = true →
    ¬ m.store.Reachable n
  taken : ∀ n : Nat, n < m.store.nodes.size → ¬ m.store.Attached n →
    ∃ (i : Nat) (f : Fragment), m.fragments[i]? = some f ∧ f.node = some n ∧ f.deleted = true

structure Owned (m : Merge) (o : LabelOwner) : Prop where
  known : o.node < m.store.nodes.size
  attached : m.store.Attached o.node
  labelled : o.name ∈ (m.store.node o.node).labels
  unmarked : ∃ (i : Nat) (f : Fragment), m.fragments[i]? = some f ∧ f.node = some o.node ∧ f.deleted = false

structure Valid (m : Merge) : Prop extends Blocks m where
  declared : ∀ n : Nat, 0 < n → n < m.store.nodes.size → (m.store.node n).fragments ≠ []
  owned : ∀ o ∈ m.labels, Owned m o

theorem empty_valid : Valid Merge.empty where
  shaped := by
    have one : ∀ id : Nat, (Store.empty.node id).children = [] := by
      intro id
      cases id <;> rfl
    have unnamed : ∀ (id : Nat) (name : Bytes), Store.empty.childNamed? id name = none := by
      intro id name
      cases id <;> rfl
    refine ⟨Nat.one_pos, rfl, ?_, ?_, ?_, ?_⟩
    · intro p c edge
      rw [Store.Edge, Merge.empty, one] at edge
      cases edge
    · intro c positive known
      simp [Merge.empty, Store.empty] at known
      omega
    · intro p
      rw [Merge.empty, one]
      exact List.nodup_nil
    · intro p name c
      rw [Store.Edge, Merge.empty, one, unnamed]
      simp
  listed i f n present := by simp [Merge.empty] at present
  stands n i present := by
    have none : ∀ id : Nat, (Store.empty.node id).fragments = [] := by
      intro id
      cases id <;> rfl
    rw [Merge.empty, none] at present
    cases present
  marked i f n present := by simp [Merge.empty] at present
  taken n known apart := by
    simp [Merge.empty, Store.empty] at known
    exact absurd (.inl known) apart
  declared n positive known := by
    simp [Merge.empty, Store.empty] at known
    omega
  owned o present := by simp [Merge.empty] at present

theorem Valid.of_parts {m n : Merge} (valid : Valid m) (store : n.store = m.store)
    (fragments : n.fragments = m.fragments) (labels : n.labels = m.labels) : Valid n := by
  cases m
  cases n
  cases store
  cases fragments
  cases labels
  exact ⟨⟨valid.shaped, valid.listed, valid.stands, valid.marked, valid.taken⟩, valid.declared,
    fun o present => ⟨(valid.owned o present).known, (valid.owned o present).attached,
      (valid.owned o present).labelled, (valid.owned o present).unmarked⟩⟩

structure Quiet (m n : Merge) : Prop where
  alike : Store.Alike m.store n.store
  blocks : n.fragments = m.fragments
  lists : ∀ id, (n.store.node id).fragments = (m.store.node id).fragments

theorem Quiet.refl (m : Merge) : Quiet m m :=
  ⟨⟨rfl, fun _ => rfl, fun _ => rfl, fun _ => rfl, fun _ => rfl⟩, rfl, fun _ => rfl⟩

theorem Quiet.trans {m n k : Merge} (one : Quiet m n) (two : Quiet n k) : Quiet m k :=
  ⟨one.alike.trans two.alike, two.blocks.trans one.blocks, fun id => (two.lists id).trans (one.lists id)⟩

theorem Quiet.keepsBlocks {m n : Merge} (quiet : Quiet m n) (blocks : Blocks m) : Blocks n where
  shaped := quiet.alike.shaped blocks.shaped
  listed i f id present node := by
    rw [quiet.blocks] at present
    rw [quiet.alike.size, quiet.lists]
    exact blocks.listed i f id present node
  stands id i present := by
    rw [quiet.lists] at present
    rw [quiet.blocks]
    exact blocks.stands id i present
  marked i f id present node deleted := by
    rw [quiet.blocks] at present
    rw [quiet.alike.reachable]
    exact blocks.marked i f id present node deleted
  taken id known apart := by
    rw [quiet.alike.size] at known
    rw [quiet.alike.attached] at apart
    rw [quiet.blocks]
    exact blocks.taken id known apart

theorem Quiet.keepsDeclared {m n : Merge} (quiet : Quiet m n) (valid : Valid m) (id : Nat) (positive : 0 < id)
    (known : id < n.store.nodes.size) : (n.store.node id).fragments ≠ [] := by
  rw [quiet.alike.size] at known
  rw [quiet.lists]
  exact valid.declared id positive known

theorem Quiet.keepsOwned {m n : Merge} (quiet : Quiet m n) {o : LabelOwner} (owned : Owned m o)
    (labelled : o.name ∈ (n.store.node o.node).labels) : Owned n o where
  known := by rw [quiet.alike.size]; exact owned.known
  attached := by rw [quiet.alike.attached]; exact owned.attached
  labelled := labelled
  unmarked := by rw [quiet.blocks]; exact owned.unmarked

theorem quiet_modify (m : Merge) (id : Nat) (f : Node → Node) (frame : ∀ n, (f n).frame = n.frame)
    (fragments : ∀ n, (f n).fragments = n.fragments) (labels : List LabelOwner) (diagnostics : List Diagnostic) :
    Quiet m { m with store := m.store.modify id f, labels, diagnostics } where
  alike := Store.alike_modify m.store id f frame
  blocks := rfl
  lists other := Store.node_modify_keeps m.store id other f Node.fragments fragments

theorem quiet_setProperty (m : Merge) (id : Nat) (p : Property) : Quiet m (m.setProperty (some id) p) :=
  quiet_modify m id (fun n => { n with properties := n.properties.set p }) (fun _ => rfl) (fun _ => rfl)
    m.labels m.diagnostics

theorem quiet_eraseProperty (m : Merge) (id : Nat) (name : Bytes) : Quiet m (m.eraseProperty id name) :=
  quiet_modify m id (fun n => { n with properties := n.properties.erase name }) (fun _ => rfl) (fun _ => rfl)
    m.labels m.diagnostics

theorem setProperty_valid {m : Merge} (valid : Valid m) (id : Nat) (p : Property) :
    Valid (m.setProperty (some id) p) where
  toBlocks := (quiet_setProperty m id p).keepsBlocks valid.toBlocks
  declared := (quiet_setProperty m id p).keepsDeclared valid
  owned o present := by
    refine (quiet_setProperty m id p).keepsOwned (valid.owned o present) ?_
    have same := Store.node_modify_keeps m.store id o.node
      (fun n => { n with properties := n.properties.set p }) Node.labels (fun _ => rfl)
    exact same ▸ (valid.owned o present).labelled

theorem eraseProperty_valid {m : Merge} (valid : Valid m) (id : Nat) (name : Bytes) :
    Valid (m.eraseProperty id name) where
  toBlocks := (quiet_eraseProperty m id name).keepsBlocks valid.toBlocks
  declared := (quiet_eraseProperty m id name).keepsDeclared valid
  owned o present := by
    refine (quiet_eraseProperty m id name).keepsOwned (valid.owned o present) ?_
    have same := Store.node_modify_keeps m.store id o.node
      (fun n => { n with properties := n.properties.erase name }) Node.labels (fun _ => rfl)
    exact same ▸ (valid.owned o present).labelled

-- Giving a label. It leaves the node that had it, and the labels of all other names stay.

def loseLabel (m : Merge) (file : Bytes) (id : NodeId) (l : Label) : Merge :=
  match m.owner? l.name with
  | some owner =>
    if owner.node = id then m
    else
      let moved := Finding.labelMoved l.name (m.store.node id).path file l.range.start.line
      let store := m.store.modify owner.node fun n => { n with labels := n.labels.erase l.name }
      { m.report owner.file owner.range moved with store }
  | none => m

def gainLabel (m : Merge) (file : Bytes) (id : NodeId) (l : Label) : Merge :=
  { m with
    labels := m.labels.filter (·.name != l.name) ++ [⟨l.name, id, file, l.range⟩]
    store := m.store.modify id fun n =>
      if n.labels.elem l.name then n else { n with labels := n.labels ++ [l.name] } }

theorem addLabel_eq (m : Merge) (file : Bytes) (id : NodeId) (l : Label) :
    m.addLabel file id l = (m.loseLabel file id l).gainLabel file id l := rfl

theorem quiet_loseLabel (m : Merge) (file : Bytes) (id : Nat) (l : Label) : Quiet m (m.loseLabel file id l) := by
  unfold loseLabel
  split
  · rename_i owner _
    split
    · exact .refl m
    · exact quiet_modify m owner.node (fun n => { n with labels := n.labels.erase l.name }) (fun _ => rfl)
        (fun _ => rfl) m.labels _
  · exact .refl m

theorem labels_loseLabel (m : Merge) (file : Bytes) (id : NodeId) (l : Label) :
    (m.loseLabel file id l).labels = m.labels := by
  unfold loseLabel
  split
  · split <;> rfl
  · rfl

theorem mem_labels_loseLabel {m : Merge} (file : Bytes) (id : Nat) (l : Label) {x : Bytes} (differ : x ≠ l.name)
    {n : Nat} (present : x ∈ (m.store.node n).labels) : x ∈ ((m.loseLabel file id l).store.node n).labels := by
  unfold loseLabel
  split
  · rename_i owner _
    split
    · exact present
    · by_cases equal : n = owner.node
      · subst n
        by_cases known : owner.node < m.store.nodes.size
        · rw [Store.node_modify_self _ _ _ known]
          exact (List.mem_erase_of_ne differ).mpr present
        · rw [Store.node_beyond _ _ (Nat.not_lt.mp known)] at present
          cases present
      · rw [Store.node_modify_other _ _ _ _ equal]
        exact present
  · exact present

private theorem gain_keeps {α : Type} (l : Label) (get : Node → α)
    (same : ∀ (n : Node) ls, get { n with labels := ls } = get n) (n : Node) :
    get (if n.labels.elem l.name then n else { n with labels := n.labels ++ [l.name] }) = get n := by
  split
  · rfl
  · exact same n _

theorem quiet_gainLabel (m : Merge) (file : Bytes) (id : Nat) (l : Label) : Quiet m (m.gainLabel file id l) :=
  quiet_modify m id _ (gain_keeps l Node.frame fun _ _ => rfl) (gain_keeps l Node.fragments fun _ _ => rfl) _ m.diagnostics

theorem mem_labels_gainLabel {m : Merge} (file : Bytes) (id : Nat) (l : Label) {x : Bytes} {n : Nat}
    (present : x ∈ (m.store.node n).labels) : x ∈ ((m.gainLabel file id l).store.node n).labels := by
  by_cases equal : n = id
  · subst n
    by_cases known : id < m.store.nodes.size
    · simp only [gainLabel, Store.node_modify_self _ _ _ known]
      split
      · exact present
      · exact List.mem_append_left _ present
    · rw [Store.node_beyond _ _ (Nat.not_lt.mp known)] at present
      cases present
  · simp only [gainLabel, Store.node_modify_other _ _ _ _ equal]
    exact present

theorem gained_label (m : Merge) (file : Bytes) {id : Nat} (l : Label) (known : id < m.store.nodes.size) :
    l.name ∈ ((m.gainLabel file id l).store.node id).labels := by
  simp only [gainLabel, Store.node_modify_self _ _ _ known]
  split
  · rename_i already
    simpa using already
  · simp

theorem quiet_addLabel (m : Merge) (file : Bytes) (id : Nat) (l : Label) : Quiet m (m.addLabel file id l) :=
  (quiet_loseLabel m file id l).trans (quiet_gainLabel _ file id l)

theorem mem_addLabel (m : Merge) (file : Bytes) (id : NodeId) (l : Label) (o : LabelOwner) :
    o ∈ (m.addLabel file id l).labels ↔
      o ∈ m.labels ∧ o.name ≠ l.name ∨ o = ⟨l.name, id, file, l.range⟩ := by
  rw [addLabel_eq]
  simp [gainLabel, labels_loseLabel]

theorem addLabel_valid {m : Merge} (valid : Valid m) (file : Bytes) {id : Nat} (l : Label)
    (known : id < m.store.nodes.size) (attached : m.store.Attached id)
    (unmarked : ∃ (i : Nat) (f : Fragment), m.fragments[i]? = some f ∧ f.node = some id ∧ f.deleted = false) :
    Valid (m.addLabel file id l) where
  toBlocks := (quiet_addLabel m file id l).keepsBlocks valid.toBlocks
  declared := (quiet_addLabel m file id l).keepsDeclared valid
  owned o present := by
    have quiet := quiet_addLabel m file id l
    rcases (mem_addLabel m file id l o).mp present with ⟨old, differ⟩ | rfl
    · have owned := valid.owned o old
      exact quiet.keepsOwned owned
        (mem_labels_gainLabel file id l (mem_labels_loseLabel file id l differ owned.labelled))
    · exact {
        known := by rw [quiet.alike.size]; exact known
        attached := by rw [quiet.alike.attached]; exact attached
        labelled := gained_label (m.loseLabel file id l) file l (by rw [(quiet_loseLabel m file id l).alike.size]; exact known)
        unmarked := by rw [quiet.blocks]; exact unmarked }

def addBlock (m : Merge) (file : Bytes) (decl : NodeDecl) (id : NodeId) : Merge :=
  { m with
    fragments := m.fragments.push ⟨file, decl, some id, false⟩
    store := m.store.modify id fun n => { n with fragments := n.fragments ++ [m.fragments.size] } }

theorem openBlock_some (m : Merge) (file : Bytes) (decl : NodeDecl) (id : NodeId) :
    (m.openBlock file decl (some id)).2 =
      decl.head.labels.foldl (fun m l => m.addLabel file id l) (m.addBlock file decl id) := rfl

theorem alike_addBlock (m : Merge) (file : Bytes) (decl : NodeDecl) (id : Nat) :
    Store.Alike m.store (m.addBlock file decl id).store :=
  Store.alike_modify m.store id (fun n => { n with fragments := n.fragments ++ [m.fragments.size] }) fun _ => rfl

theorem added_block (m : Merge) (file : Bytes) (decl : NodeDecl) (id : Nat) :
    (m.addBlock file decl id).fragments[m.fragments.size]? = some ⟨file, decl, some id, false⟩ := by
  simp [addBlock]

theorem old_block {m : Merge} (file : Bytes) (decl : NodeDecl) (id : Nat) {i : Nat} {f : Fragment}
    (present : m.fragments[i]? = some f) : (m.addBlock file decl id).fragments[i]? = some f := by
  have bounded : i < m.fragments.size := (Array.getElem?_eq_some_iff.mp present).1
  simp only [addBlock, Array.getElem?_push, Nat.ne_of_lt bounded, if_false]
  exact present

theorem block_cases {m : Merge} {file : Bytes} {decl : NodeDecl} {id i : Nat} {f : Fragment}
    (present : (m.addBlock file decl id).fragments[i]? = some f) :
    m.fragments[i]? = some f ∨ i = m.fragments.size ∧ f = ⟨file, decl, some id, false⟩ := by
  simp only [addBlock, Array.getElem?_push] at present
  split at present
  · exact .inr ⟨‹_›, (Option.some.inj present).symm⟩
  · exact .inl present

theorem mem_fragments_addBlock {m : Merge} (file : Bytes) (decl : NodeDecl) {id : Nat}
    (known : id < m.store.nodes.size) (n i : Nat) :
    i ∈ ((m.addBlock file decl id).store.node n).fragments ↔
      i ∈ (m.store.node n).fragments ∨ n = id ∧ i = m.fragments.size := by
  by_cases equal : n = id
  · subst n
    simp [addBlock, Store.node_modify_self _ _ _ known]
  · simp [addBlock, Store.node_modify_other _ _ _ _ equal, equal]

theorem addBlock_blocks {m : Merge} (blocks : Blocks m) (file : Bytes) (decl : NodeDecl) {id : Nat}
    (known : id < m.store.nodes.size) : Blocks (m.addBlock file decl id) where
  shaped := (alike_addBlock m file decl id).shaped blocks.shaped
  listed i f n present node := by
    rw [(alike_addBlock m file decl id).size, mem_fragments_addBlock file decl known]
    rcases block_cases present with old | ⟨rfl, rfl⟩
    · obtain ⟨bounded, lists⟩ := blocks.listed i f n old node
      exact ⟨bounded, .inl lists⟩
    · cases Option.some.inj node
      exact ⟨known, .inr ⟨rfl, rfl⟩⟩
  stands n i present := by
    rcases (mem_fragments_addBlock file decl known n i).mp present with old | ⟨rfl, rfl⟩
    · obtain ⟨f, here, node⟩ := blocks.stands n i old
      exact ⟨f, old_block file decl id here, node⟩
    · exact ⟨_, added_block m file decl n, rfl⟩
  marked i f n present node deleted := by
    rw [(alike_addBlock m file decl id).reachable]
    rcases block_cases present with old | ⟨_, rfl⟩
    · exact blocks.marked i f n old node deleted
    · cases deleted
  taken n bounded apart := by
    rw [(alike_addBlock m file decl id).size] at bounded
    rw [(alike_addBlock m file decl id).attached] at apart
    obtain ⟨i, f, present, node, deleted⟩ := blocks.taken n bounded apart
    exact ⟨i, f, old_block file decl id present, node, deleted⟩

theorem addBlock_owned {m : Merge} (file : Bytes) (decl : NodeDecl) (id : Nat) {o : LabelOwner}
    (owned : Owned m o) : Owned (m.addBlock file decl id) o where
  known := by rw [(alike_addBlock m file decl id).size]; exact owned.known
  attached := by rw [(alike_addBlock m file decl id).attached]; exact owned.attached
  labelled := by
    have same := Store.node_modify_keeps m.store id o.node
      (fun n => { n with fragments := n.fragments ++ [m.fragments.size] }) Node.labels (fun _ => rfl)
    exact same ▸ owned.labelled
  unmarked := by
    obtain ⟨i, f, present, rest⟩ := owned.unmarked
    exact ⟨i, f, old_block file decl id present, rest⟩

theorem addLabels_valid (labels : List Label) {m : Merge} (valid : Valid m) (file : Bytes) {id : Nat}
    (known : id < m.store.nodes.size) (attached : m.store.Attached id)
    (unmarked : ∃ (i : Nat) (f : Fragment), m.fragments[i]? = some f ∧ f.node = some id ∧ f.deleted = false) :
    Valid (labels.foldl (fun m l => m.addLabel file id l) m) := by
  induction labels generalizing m with
  | nil => exact valid
  | cons l rest ih =>
    have quiet := quiet_addLabel m file id l
    refine ih (addLabel_valid valid file l known attached unmarked) ?_ ?_ ?_
    · rw [quiet.alike.size]; exact known
    · rw [quiet.alike.attached]; exact attached
    · rw [quiet.blocks]; exact unmarked

theorem openBlock_valid {m : Merge} (blocks : Blocks m) (owned : ∀ o ∈ m.labels, Owned m o) (file : Bytes)
    (decl : NodeDecl) {id : Nat} (known : id < m.store.nodes.size) (attached : m.store.Attached id)
    (declared : ∀ n : Nat, 0 < n → n < m.store.nodes.size → n ≠ id → (m.store.node n).fragments ≠ []) :
    Valid (m.openBlock file decl (some id)).2 := by
  have alike := alike_addBlock m file decl id
  have opened : Valid (m.addBlock file decl id) := {
    toBlocks := addBlock_blocks blocks file decl known
    declared := by
      intro n positive bounded empty
      rw [alike.size] at bounded
      by_cases equal : n = id
      · have member := (mem_fragments_addBlock file decl known n m.fragments.size).mpr (.inr ⟨equal, rfl⟩)
        rw [empty] at member
        cases member
      · obtain ⟨i, member⟩ := List.exists_mem_of_ne_nil _ (declared n positive bounded equal)
        have member := (mem_fragments_addBlock file decl known n i).mpr (.inl member)
        rw [empty] at member
        cases member
    owned := fun o present => addBlock_owned file decl id (owned o present) }
  rw [openBlock_some]
  refine addLabels_valid decl.head.labels opened file ?_ ?_ ?_
  · rw [alike.size]; exact known
  · rw [alike.attached]; exact attached
  · exact ⟨_, _, added_block m file decl id, rfl, rfl⟩

theorem orphan_valid {m : Merge} (valid : Valid m) (file : Bytes) (decl : NodeDecl) :
    Valid (m.openBlock file decl none).2 := by
  have pushed : ∀ (i : Nat) (f : Fragment), m.fragments[i]? = some f →
      (m.openBlock file decl none).2.fragments[i]? = some f := by
    intro i f present
    have bounded : i < m.fragments.size := (Array.getElem?_eq_some_iff.mp present).1
    simp only [openBlock, Array.getElem?_push, Nat.ne_of_lt bounded, if_false]
    exact present
  have before : ∀ (i : Nat) f (n : Nat), (m.openBlock file decl none).2.fragments[i]? = some f →
      f.node = some n → m.fragments[i]? = some f := by
    intro i f n present node
    simp only [openBlock, Array.getElem?_push] at present
    split at present
    · cases Option.some.inj present
      cases node
    · exact present
  exact {
    shaped := valid.shaped
    listed := fun i f n present node => valid.listed i f n (before i f n present node) node
    stands := by
      intro n i present
      obtain ⟨f, here, node⟩ := valid.stands n i present
      exact ⟨f, pushed i f here, node⟩
    marked := fun i f n present node => valid.marked i f n (before i f n present node) node
    taken := by
      intro n bounded apart
      obtain ⟨i, f, present, rest⟩ := valid.taken n bounded apart
      exact ⟨i, f, pushed i f present, rest⟩
    declared := valid.declared
    owned := by
      intro o present
      have owned := valid.owned o present
      obtain ⟨i, f, here, rest⟩ := owned.unmarked
      exact ⟨owned.known, owned.attached, owned.labelled, i, f, pushed i f here, rest⟩ }

section Growth

variable {m : Merge} {id : Nat} {name : Bytes} (missing : m.store.childNamed? id name = none)
  (known : id < m.store.nodes.size)
include missing known

theorem grow_blocks (blocks : Blocks m) : Blocks { m with store := (m.store.child id name).2 } where
  shaped := blocks.shaped.grow missing known
  listed i f n present node := by
    obtain ⟨bounded, lists⟩ := blocks.listed i f n present node
    refine ⟨by rw [Store.size_child missing]; exact Nat.lt_succ_of_lt bounded, ?_⟩
    rw [Store.node_child_keeps missing known (Nat.ne_of_lt bounded) Node.fragments (fun _ _ _ => rfl)]
    exact lists
  stands n i present := by
    by_cases fresh : n = m.store.nodes.size
    · subst n
      rw [Store.node_child_new missing known] at present
      cases present
    · rw [Store.node_child_keeps missing known fresh Node.fragments (fun _ _ _ => rfl)] at present
      exact blocks.stands n i present
  marked i f n present node deleted reached := by
    have bounded := (blocks.listed i f n present node).1
    exact blocks.marked i f n present node deleted
      (Store.reachable_of_grow missing blocks.shaped known bounded reached)
  taken n bounded apart := by
    rw [Store.attached_grow missing known, not_or] at apart
    rw [Store.size_child missing] at bounded
    exact blocks.taken n (by omega) apart.1

theorem grow_owned {o : LabelOwner} (owned : Owned m o) :
    Owned { m with store := (m.store.child id name).2 } o where
  known := by rw [Store.size_child missing]; exact Nat.lt_succ_of_lt owned.known
  attached := (Store.attached_grow missing known o.node).mpr (.inl owned.attached)
  labelled := by
    rw [Store.node_child_keeps missing known (Nat.ne_of_lt owned.known) Node.labels (fun _ _ _ => rfl)]
    exact owned.labelled
  unmarked := owned.unmarked

theorem grow_valid (valid : Valid m) (file : Bytes) (decl : NodeDecl) :
    Valid ({ m with store := (m.store.child id name).2 }.openBlock file decl (some m.store.nodes.size)).2 := by
  refine openBlock_valid (grow_blocks missing known valid.toBlocks)
    (fun o present => grow_owned missing known (valid.owned o present)) file decl ?_ ?_ ?_
  · rw [Store.size_child missing]; exact Nat.lt_succ_self _
  · exact (Store.attached_grow missing known _).mpr (.inr rfl)
  · intro n positive bounded old
    rw [Store.size_child missing] at bounded
    rw [Store.node_child_keeps missing known old Node.fragments (fun _ _ _ => rfl)]
    exact valid.declared n positive (by omega)

end Growth

section Removal

variable {m : Merge} (valid : Valid m) {id p : Nat} (edge : m.store.Edge p id)
include valid edge

theorem deleteNode_eq (file : Bytes) (d : Delete) :
    m.deleteNode file d (some id) =
      ((m.store.detach p (m.store.node id).name).subtree id).foldl retire
        { m with store := m.store.detach p (m.store.node id).name } := by
  simp only [deleteNode, (valid.shaped.child p id edge).2.2]

theorem mem_removed (n : Nat) :
    n ∈ (m.store.detach p (m.store.node id).name).subtree id ↔ m.store.Below id n := by
  rw [(valid.shaped.cut edge).mem_subtree, Store.below_detach valid.shaped edge]
  rw [Store.size_detach valid.shaped edge]
  exact (valid.shaped.child p id edge).2.1

theorem store_deleteNode (file : Bytes) (d : Delete) :
    (m.deleteNode file d (some id)).store = m.store.detach p (m.store.node id).name := by
  rw [deleteNode_eq valid edge, store_retireAll]

theorem fragments_node_detach (n : Nat) :
    ((m.store.detach p (m.store.node id).name).node n).fragments = (m.store.node n).fragments :=
  Store.node_detach_keeps valid.shaped edge n Node.fragments (fun _ _ _ => rfl)

theorem labels_node_detach (n : Nat) :
    ((m.store.detach p (m.store.node id).name).node n).labels = (m.store.node n).labels :=
  Store.node_detach_keeps valid.shaped edge n Node.labels (fun _ _ _ => rfl)

theorem mem_labels_deleteNode (file : Bytes) (d : Delete) (o : LabelOwner) :
    o ∈ (m.deleteNode file d (some id)).labels ↔ o ∈ m.labels ∧ ¬ m.store.Below id o.node := by
  rw [deleteNode_eq valid edge, mem_labels_retireAll]
  simp only [mem_removed valid edge, labels_node_detach valid edge]
  constructor
  · rintro ⟨present, free⟩
    exact ⟨present, fun under => free ⟨under, (valid.owned o present).labelled⟩⟩
  · rintro ⟨present, outside⟩
    exact ⟨present, fun both => outside both.1⟩

-- A block after the deletion is the block before it, marked if its node was taken out.
theorem block_after (file : Bytes) (d : Delete) {i : Nat} {g : Fragment} (before : m.fragments[i]? = some g) :
    ∃ f, (m.deleteNode file d (some id)).fragments[i]? = some f ∧ f.node = g.node ∧
      (f.deleted = true ↔ g.deleted = true ∨ ∃ n : Nat, g.node = some n ∧ m.store.Below id n) := by
  rw [deleteNode_eq valid edge, fragments_retireAll, before]
  refine ⟨_, rfl, ?_, ?_⟩
  · dsimp only
    split <;> rfl
  · dsimp only
    split
    · rename_i hit
      obtain ⟨n, under, lists⟩ := hit
      rw [mem_removed valid edge] at under
      rw [fragments_node_detach valid edge] at lists
      obtain ⟨h, same, node⟩ := valid.stands n i lists
      rw [before] at same
      cases Option.some.inj same
      exact ⟨fun _ => .inr ⟨n, node, under⟩, fun _ => rfl⟩
    · rename_i miss
      constructor
      · exact Or.inl
      · rintro (deleted | ⟨n, node, under⟩)
        · exact deleted
        · have lists := (valid.listed i g n before node).2
          rw [← fragments_node_detach valid edge] at lists
          exact absurd ⟨n, (mem_removed valid edge n).mpr under, lists⟩ miss

theorem block_before (file : Bytes) (d : Delete) {i : Nat} {f : Fragment}
    (present : (m.deleteNode file d (some id)).fragments[i]? = some f) :
    ∃ g, m.fragments[i]? = some g ∧ f.node = g.node ∧
      (f.deleted = true ↔ g.deleted = true ∨ ∃ n : Nat, g.node = some n ∧ m.store.Below id n) := by
  cases before : m.fragments[i]? with
  | none =>
    rw [deleteNode_eq valid edge, fragments_retireAll, before] at present
    cases present
  | some g =>
    obtain ⟨f', after, rest⟩ := block_after valid edge file d before
    rw [present] at after
    cases Option.some.inj after
    exact ⟨g, rfl, rest⟩

theorem deleteNode_valid (file : Bytes) (d : Delete) : Valid (m.deleteNode file d (some id)) where
  shaped := by
    rw [store_deleteNode valid edge]
    exact valid.shaped.cut edge
  listed i f n present node := by
    obtain ⟨g, before, same, _⟩ := block_before valid edge file d present
    rw [same] at node
    rw [store_deleteNode valid edge, Store.size_detach valid.shaped edge, fragments_node_detach valid edge]
    exact valid.listed i g n before node
  stands n i lists := by
    rw [store_deleteNode valid edge, fragments_node_detach valid edge] at lists
    obtain ⟨g, before, node⟩ := valid.stands n i lists
    obtain ⟨f, after, same, _⟩ := block_after valid edge file d before
    exact ⟨f, after, same.trans node⟩
  marked i f n present node deleted := by
    obtain ⟨g, before, same, marks⟩ := block_before valid edge file d present
    rw [same] at node
    rw [store_deleteNode valid edge, Store.reachable_detach valid.shaped edge]
    rintro ⟨reached, outside⟩
    rcases marks.mp deleted with old | ⟨k, at_, under⟩
    · exact valid.marked i g n before node old reached
    · rw [node] at at_
      cases Option.some.inj at_
      exact outside under
  taken n bounded apart := by
    rw [store_deleteNode valid edge, Store.size_detach valid.shaped edge] at bounded
    rw [store_deleteNode valid edge, Store.attached_detach valid.shaped edge] at apart
    -- Of a node that was cut off before, the mark stays; the node cut off now has a block to mark.
    have found : ∃ (i : Nat) (g : Fragment), m.fragments[i]? = some g ∧ g.node = some n ∧
        (g.deleted = true ∨ ∃ k : Nat, g.node = some k ∧ m.store.Below id k) := by
      by_cases attached : m.store.Attached n
      · have equal : n = id := by
          by_contra differ
          exact apart ⟨attached, differ⟩
        subst n
        have positive : 0 < id := Nat.zero_lt_of_lt (valid.shaped.child p id edge).1
        obtain ⟨i, lists⟩ := List.exists_mem_of_ne_nil _ (valid.declared id positive bounded)
        obtain ⟨g, before, node⟩ := valid.stands id i lists
        exact ⟨i, g, before, node, .inr ⟨id, node, .refl⟩⟩
      · obtain ⟨i, g, before, node, deleted⟩ := valid.taken n bounded attached
        exact ⟨i, g, before, node, .inl deleted⟩
    obtain ⟨i, g, before, node, marks⟩ := found
    obtain ⟨f, after, same, exactly⟩ := block_after valid edge file d before
    exact ⟨i, f, after, same.trans node, exactly.mpr marks⟩
  declared n positive bounded := by
    rw [store_deleteNode valid edge, Store.size_detach valid.shaped edge] at bounded
    rw [store_deleteNode valid edge, fragments_node_detach valid edge]
    exact valid.declared n positive bounded
  owned o present := by
    obtain ⟨before, outside⟩ := (mem_labels_deleteNode valid edge file d o).mp present
    have owned := valid.owned o before
    refine ⟨?_, ?_, ?_, ?_⟩
    · rw [store_deleteNode valid edge, Store.size_detach valid.shaped edge]; exact owned.known
    · rw [store_deleteNode valid edge, Store.attached_detach valid.shaped edge]
      exact ⟨owned.attached, fun equal => outside (by rw [equal])⟩
    · rw [store_deleteNode valid edge, labels_node_detach valid edge]; exact owned.labelled
    · obtain ⟨i, g, present, node, unmarked⟩ := owned.unmarked
      obtain ⟨f, after, same, marks⟩ := block_after valid edge file d present
      refine ⟨i, f, after, same.trans node, ?_⟩
      rw [← Bool.not_eq_true, marks]
      rintro (deleted | ⟨n, at_, under⟩)
      · rw [unmarked] at deleted; cases deleted
      · rw [node] at at_
        cases Option.some.inj at_
        exact outside under

end Removal

theorem Locates.attached {m : Merge} (valid : Valid m) {id : Nat} (found : m.Locates id) :
    id < m.store.nodes.size ∧ m.store.Attached id := by
  cases found with
  | root => exact ⟨valid.shaped.nonempty, .inl rfl⟩
  | @child p _ _ found =>
    have edge := ((valid.shaped.listed _ _ _).mp found).1
    exact ⟨(valid.shaped.child p id edge).2.1, .inr ⟨p, edge⟩⟩
  | @target t _ found =>
    cases t with
    | label l =>
      obtain ⟨o, owner, rfl⟩ := Option.map_eq_some_iff.mp found
      have owned := valid.owned o (List.mem_of_find?_eq_some owner)
      exact ⟨owned.known, owned.attached⟩
    | path path =>
      have reached := valid.shaped.reachable_of_find found
      exact ⟨valid.shaped.below_known valid.shaped.nonempty reached, Store.attached_of_reachable reached⟩

theorem Locates.edge {m : Merge} (valid : Valid m) {id p : Nat} (found : m.Locates id)
    (parent : (m.store.node id).parent = some p) : m.store.Edge p id := by
  rcases (found.attached valid).2 with rfl | ⟨q, edge⟩
  · rw [valid.shaped.orphan] at parent
    cases parent
  · have same := (valid.shaped.child q id edge).2.2
    rw [parent] at same
    cases Option.some.inj same
    exact edge

theorem Move.valid {v : Vocabulary} {m n : Merge} (move : Move v m n) (valid : Valid m) : Valid n := by
  cases move with
  | note files plain => exact valid.of_parts rfl rfl rfl
  | orphan file decl => exact orphan_valid valid file decl
  | block file found heads =>
    obtain ⟨known, attached⟩ := found.attached valid
    exact openBlock_valid valid.toBlocks valid.owned file _ known attached
      fun k positive bounded _ => valid.declared k positive bounded
  | grow file known missing _ _ => exact grow_valid missing known valid file _
  | set known spelled => exact setProperty_valid valid _ _
  | erase known name => exact eraseProperty_valid valid _ name
  | delete file d found parent => exact deleteNode_valid valid (found.edge valid parent) file d

theorem size_openBlock (m : Merge) (file : Bytes) (decl : NodeDecl) (id : Nat) :
    (m.openBlock file decl (some id)).2.store.nodes.size = m.store.nodes.size := by
  have labels : ∀ (ls : List Label) (k : Merge),
      (ls.foldl (fun m l => m.addLabel file id l) k).store.nodes.size = k.store.nodes.size := by
    intro ls
    induction ls with
    | nil => intro k; rfl
    | cons l rest ih => intro k; rw [List.foldl_cons, ih, (quiet_addLabel k file id l).alike.size]
  rw [openBlock_some, labels, (alike_addBlock m file decl id).size]

theorem Move.size_le {v : Vocabulary} {m n : Merge} (move : Move v m n) (valid : Valid m) :
    m.store.nodes.size ≤ n.store.nodes.size := by
  cases move with
  | note files plain => exact Nat.le_refl _
  | orphan file decl => exact Nat.le_refl _
  | block file found heads => exact Nat.le_of_eq (size_openBlock _ file _ _).symm
  | grow file known missing _ _ => rw [size_openBlock, Store.size_child missing]; exact Nat.le_succ _
  | set known spelled => exact Nat.le_of_eq (quiet_setProperty _ _ _).alike.size.symm
  | erase known name => exact Nat.le_of_eq (quiet_eraseProperty _ _ _).alike.size.symm
  | delete file d found parent =>
    have edge := found.edge valid parent
    rw [store_deleteNode valid edge]
    exact Nat.le_of_eq (Store.size_detach valid.shaped edge).symm

theorem Moves.valid {v : Vocabulary} {m n : Merge} (moves : Moves v m n) (valid : Valid m) : Valid n := by
  induction moves with
  | refl => exact valid
  | tail _ move ih => exact move.valid ih

theorem Moves.size_le {v : Vocabulary} {m n : Merge} (moves : Moves v m n) (valid : Valid m) :
    m.store.nodes.size ≤ n.store.nodes.size := by
  induction moves with
  | refl => exact Nat.le_refl _
  | tail before move ih => exact Nat.le_trans ih (move.size_le (Moves.valid before valid))

theorem deleteNode_moves (v : Vocabulary) {m : Merge} (file : Bytes) (d : Delete) {target : Option NodeId}
    (found : ∀ id, target = some id → m.Locates id) : Moves v m (m.deleteNode file d target) := by
  cases target with
  | none => exact .single (.report m _ _ nofun)
  | some id =>
    cases parent : (m.store.node id).parent with
    | none =>
      simp only [deleteNode, parent]
      exact .single (.report m _ _ nofun)
    | some p => exact .single (.delete file d (found id rfl) parent)

theorem deleteIn_moves (v : Vocabulary) {m : Merge} (file : Bytes) {node : Option NodeId} (d : Delete)
    (known : ∀ id : Nat, node = some id → id < m.store.nodes.size) : Moves v m (m.deleteIn file node d) := by
  cases node with
  | none => exact .refl
  | some id =>
    unfold deleteIn
    cases d.victim with
    | property name => exact .single (.erase (known id rfl) name)
    | node name => exact deleteNode_moves v file d fun c found => .child found
    | target r => exact deleteNode_moves v file d fun c found => .target found

theorem childBlock_moves {v : Vocabulary} {m : Merge} (file : Bytes) (decl : NodeDecl) {id : Nat} {name : Bytes}
    (known : id < m.store.nodes.size) (spelled : v.name name) (heads : v.Heads decl.head) :
    Moves v m ((m.childOf (some id) name).2.openBlock file decl (m.childOf (some id) name).1).2 := by
  cases found : m.store.childNamed? id name with
  | some c =>
    have same : m.childOf (some id) name = (some c, m) := by simp [childOf, Store.child, found]
    rw [same]
    exact .single (.block file (.child found) heads)
  | none =>
    have fresh : m.childOf (some id) name = (some m.store.nodes.size, { m with store := (m.store.child id name).2 }) := by
      simp [childOf, Store.child, found]
    rw [fresh]
    exact .single (.grow file known found spelled heads)

theorem childOf_known {m : Merge} (valid : Valid m) (file : Bytes) (decl : NodeDecl) (id : Nat) (name : Bytes)
    (c : Nat) (child : (m.childOf (some id) name).1 = some c) :
    c < ((m.childOf (some id) name).2.openBlock file decl (m.childOf (some id) name).1).2.store.nodes.size := by
  rw [child, size_openBlock]
  cases found : m.store.childNamed? id name with
  | some d =>
    simp only [childOf, Store.child, found, Option.some.injEq] at child ⊢
    subst child
    exact (valid.shaped.child id d ((valid.shaped.listed id name d).mp found).1).2.1
  | none =>
    simp only [childOf, Store.child_new found, Option.some.injEq] at child ⊢
    rw [Store.size_child found, ← child]
    exact Nat.lt_succ_self _

theorem statements_moves {v : Vocabulary} (file : Bytes) (node : Option NodeId) (fragment : FragmentId)
    (stmts : List Statement) (m : Merge) (covers : v.Covers stmts) (valid : Valid m)
    (known : ∀ id : Nat, node = some id → id < m.store.nodes.size) :
    Moves v m (statements file node fragment stmts m) := by
  induction node, fragment, stmts, m using statements_induct file with
  | nil node fragment m =>
    rw [statements_nil]
  | property node fragment decl rest m ih =>
    rw [Vocabulary.Covers] at covers
    rw [statements_property]
    have step : Moves v m (m.setProperty node ⟨decl, fragment⟩) := by
      cases node with
      | none => exact .refl
      | some id => exact .single (.set (known id rfl) covers.1)
    refine step.trans (ih covers.2 (step.valid valid) ?_)
    exact fun id here => Nat.lt_of_lt_of_le (known id here) (step.size_le valid)
  | block node fragment head body rest m child m₁ inner m₂ grown opened ihBody ihRest =>
    rw [Vocabulary.Covers] at covers
    simp only [statements_node, grown, opened]
    obtain ⟨⟨heads, spelled, inside⟩, after⟩ := covers
    have opening : Moves v m m₂ ∧ ∀ c : Nat, child = some c → c < m₂.store.nodes.size := by
      cases node with
      | none =>
        cases grown
        cases opened
        exact ⟨.single (.orphan _ file _), by simp⟩
      | some id =>
        have moves := childBlock_moves file ⟨head, body⟩ (known id rfl) spelled heads
        have bound := childOf_known valid file ⟨head, body⟩ id head.heading.nodeName
        rw [grown] at moves bound
        rw [opened] at moves bound
        exact ⟨moves, fun c here => bound c here⟩
    have validBody := opening.1.valid valid
    have whole : Moves v m (statements file child inner body m₂) :=
      opening.1.trans (ihBody inside validBody opening.2)
    refine whole.trans (ihRest after (whole.valid valid) ?_)
    exact fun id here => Nat.lt_of_lt_of_le (known id here) (whole.size_le valid)
  | delete node fragment d rest m ih =>
    rw [Vocabulary.Covers] at covers
    rw [statements_delete]
    have step := deleteIn_moves v file d known
    refine step.trans (ih covers (step.valid valid) ?_)
    exact fun id here => Nat.lt_of_lt_of_le (known id here) (step.size_le valid)

theorem blockBody_moves {v : Vocabulary} {m n : Merge} (valid : Valid m) (file : Bytes) {node : Option NodeId}
    {decl : NodeDecl} (opening : Moves v m (n.openBlock file decl node).2)
    (known : ∀ id : Nat, node = some id → id < (n.openBlock file decl node).2.store.nodes.size)
    (covers : v.Covers decl.body) :
    Moves v m (statements file node (n.openBlock file decl node).1 decl.body (n.openBlock file decl node).2) :=
  opening.trans (statements_moves file node _ decl.body _ covers (opening.valid valid) known)

theorem topNode_moves {v : Vocabulary} {m : Merge} (valid : Valid m) (file : Bytes) {decl : NodeDecl}
    (covers : v.CoversItem (.node decl)) : Moves v m (m.topNode file decl) := by
  obtain ⟨heads, spelled, inside⟩ := covers
  unfold topNode
  cases heading : decl.head.heading with
  | ref r =>
    cases found : m.lookup r.target with
    | some id =>
      have located : m.Locates id := .target found
      simp only [found]
      refine blockBody_moves valid file (.single (.block file located heads)) ?_ inside
      intro c here
      cases Option.some.inj here
      rw [size_openBlock]
      exact (located.attached valid).1
    | none =>
      simp only [found]
      refine blockBody_moves valid file ?_ (fun _ here => nomatch here) inside
      have plain : (Finding.undefinedNode r.text).Plain := nofun
      exact (Relation.ReflTransGen.single (Move.report m _ _ plain)).trans (.single (.orphan _ file decl))
  | name name =>
    by_cases root : name = utf8 "/"
    · simp only [root, if_true]
      refine blockBody_moves valid file (.single (.block file .root heads)) ?_ inside
      intro c here
      cases Option.some.inj here
      rw [size_openBlock]
      exact valid.shaped.nonempty
    · simp only [root, if_false]
      refine blockBody_moves valid file ?_ ?_ inside
      · exact childBlock_moves file decl valid.shaped.nonempty (spelled name heading root) heads
      · exact childOf_known valid file decl Store.rootId name

theorem topDelete_moves (v : Vocabulary) (m : Merge) (file : Bytes) (d : Delete) :
    Moves v m (m.topDelete file d) := by
  unfold topDelete
  split
  · exact deleteNode_moves v file d fun id found => .target found
  · exact .single (.report m _ _ nofun)

theorem foldl_moves {α : Type} {v : Vocabulary} (step : Merge → α → Merge) (items : List α)
    (moves : ∀ m, ∀ x ∈ items, Valid m → Moves v m (step m x)) {m : Merge} (valid : Valid m) :
    Moves v m (items.foldl step m) := by
  induction items generalizing m with
  | nil => exact .refl
  | cons x rest ih =>
    have first := moves m x List.mem_cons_self valid
    exact first.trans (ih (fun k y later => moves k y (List.mem_cons_of_mem x later)) (first.valid valid))

theorem enter_moves (v : Vocabulary) (m : Merge) (path : Bytes) : Moves v m (m.enter path) := by
  unfold enter
  split
  · exact .refl
  · have entered : Move v m { m with files := m.files ++ [path], diagnostics := m.diagnostics ++ [] } :=
      .note m _ (List.forall_mem_nil _)
    rw [List.append_nil] at entered
    exact .single entered

theorem expand_moves {v : Vocabulary} {files : List File}
    (covers : ∀ f ∈ files, ∀ i ∈ f.document.items, v.CoversItem i) (fuel : Nat) (chain : List Bytes) {f : File}
    (present : f ∈ files) {m : Merge} (valid : Valid m) : Moves v m (expand files fuel chain f m) := by
  induction fuel generalizing chain f m with
  | zero => exact .refl
  | succ fuel ih =>
    have entered := enter_moves v m f.path
    refine entered.trans (foldl_moves _ f.document.items ?_ (entered.valid valid))
    intro k i here validK
    rcases i with inc | directive | d | decl
    · dsimp only
      split
      · exact .refl
      · split
        · exact .refl
        · split
          · exact .single (.report k _ _ (Finding.plain_includeCycle _))
          · split
            · rename_i g found
              exact ih _ (List.mem_of_find?_eq_some found) validK
            · exact .single (.report k _ _ (Finding.plain_notLoaded _))
    · exact .refl
    · exact topDelete_moves v k f.path d
    · exact topNode_moves validK f.path (covers f present _ here)

theorem addRoot_moves {v : Vocabulary} {files : List File}
    (covers : ∀ f ∈ files, ∀ i ∈ f.document.items, v.CoversItem i) {m : Merge} (valid : Valid m) (root : Bytes) :
    Moves v m (m.addRoot files root) := by
  unfold addRoot
  split
  · rename_i f found
    exact expand_moves covers _ [] (List.mem_of_find?_eq_some found) valid
  · exact .single (.report m _ _ nofun)

theorem roots_moves {v : Vocabulary} {files : List File}
    (covers : ∀ f ∈ files, ∀ i ∈ f.document.items, v.CoversItem i) (roots : List Bytes) :
    Moves v Merge.empty (roots.foldl (addRoot files) .empty) :=
  foldl_moves (addRoot files) roots (fun _ root _ valid => addRoot_moves covers valid root) empty_valid

theorem roots_valid (files : List File) (roots : List Bytes) : Valid (roots.foldl (addRoot files) .empty) :=
  (roots_moves (fun _ _ i _ => Vocabulary.coversItem_unrestricted i) roots).valid empty_valid

end DeviceTree.Merge

-- The table of paths is that of the nodes that a walk from the root meets.
def DeviceTree.Tree.Tabled (t : DeviceTree.Tree) : Prop := t.byPath = t.store.pathTable
