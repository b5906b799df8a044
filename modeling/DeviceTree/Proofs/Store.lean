import DeviceTree.Tree.Store
import Mathlib.Data.List.Nodup
import Mathlib.Logic.Relation

namespace DeviceTree

theorem NodeTable.find_put (t : NodeTable) (key other : Bytes) (id : NodeId) :
    (t.put key id).find? other = if other = key then some id else t.find? other := by
  simp only [find?, put, List.lookup_cons]
  by_cases same : other = key
  · simp [same]
  · simp [same, beq_false_of_ne same]

theorem NodeTable.find_erase (t : NodeTable) (key other : Bytes) :
    (t.erase key).find? other = if other = key then none else t.find? other := by
  unfold find? erase
  induction t with
  | nil => simp
  | cons entry rest ih =>
    by_cases erased : entry.1 = key
    · rw [List.filter_cons_of_neg (by simp [erased]), ih, List.lookup_cons]
      by_cases same : other = key
      · simp [same]
      · simp [same, beq_false_of_ne fun equal => same (equal.trans erased)]
    · rw [List.filter_cons_of_pos (by simp [erased]), List.lookup_cons, List.lookup_cons, ih]
      by_cases same : other = entry.1
      · simp [same, erased]
      · simp [beq_false_of_ne same]

theorem NodeTable.find_fill (key : NodeId → Bytes) (ids : List NodeId) (t : NodeTable) (other : Bytes) :
    (ids.foldl (fun t id => t.put (key id) id) t).find? other =
      (ids.reverse.find? (key · = other)).or (t.find? other) := by
  induction ids generalizing t with
  | nil => rfl
  | cons id rest ih =>
    rw [List.foldl_cons, ih, find_put, List.reverse_cons, List.find?_append, Option.or_assoc]
    by_cases same : other = key id
    · simp [same]
    · simp [same, Ne.symm same]

def Node.frame (n : Node) : Bytes × Option NodeId × List NodeId × NodeTable :=
  (n.name, n.parent, n.children, n.childNames)

namespace Store

def Edge (s : Store) (p c : Nat) : Prop := c ∈ (s.node p).children

abbrev Below (s : Store) : NodeId → NodeId → Prop := Relation.ReflTransGen s.Edge

abbrev Reachable (s : Store) (id : Nat) : Prop := s.Below rootId id

-- A node that has been taken out keeps its number but hangs on no other node.
def Attached (s : Store) (id : Nat) : Prop := id = rootId ∨ ∃ p, s.Edge p id

structure Shaped (s : Store) : Prop where
  nonempty : 0 < s.nodes.size
  orphan : (s.node rootId).parent = none
  child : ∀ p c : Nat, s.Edge p c → p < c ∧ c < s.nodes.size ∧ (s.node c).parent = some p
  parent : ∀ c : Nat, 0 < c → c < s.nodes.size → ∃ p : Nat, p < c ∧ (s.node c).parent = some p
  distinct : ∀ p, (s.node p).children.Nodup
  -- The table of names and the list of children are kept apart, and agree.
  listed : ∀ p name c, s.childNamed? p name = some c ↔ s.Edge p c ∧ (s.node c).name = name

theorem node_beyond (s : Store) (id : Nat) (beyond : s.nodes.size ≤ id) : s.node id = Node.root := by
  simp [node, Array.getD_eq_getD_getElem?, Array.getElem?_eq_none beyond]

theorem size_modify (s : Store) (id : Nat) (f : Node → Node) :
    (s.modify id f).nodes.size = s.nodes.size := by
  simp [modify]

theorem node_modify_self (s : Store) (id : Nat) (f : Node → Node) (known : id < s.nodes.size) :
    (s.modify id f).node id = f (s.node id) := by
  simp only [node, modify, Array.getD_eq_getD_getElem?, Array.getElem?_modify, if_true]
  simp [known]

theorem node_modify_other (s : Store) (id other : Nat) (f : Node → Node) (differ : other ≠ id) :
    (s.modify id f).node other = s.node other := by
  simp [node, modify, Array.getD_eq_getD_getElem?, Array.getElem?_modify, Ne.symm differ]

theorem node_modify_keeps {α : Type} (s : Store) (id other : Nat) (f : Node → Node) (get : Node → α)
    (same : ∀ n, get (f n) = get n) : get ((s.modify id f).node other) = get (s.node other) := by
  by_cases equal : other = id
  · subst other
    by_cases known : id < s.nodes.size
    · rw [node_modify_self s id f known, same]
    · rw [node_beyond s id (Nat.not_lt.mp known), node_beyond _ id (by rw [size_modify]; exact Nat.not_lt.mp known)]
  · rw [node_modify_other s id other f equal]

theorem Shaped.below_le {s : Store} (shaped : s.Shaped) {a b : Nat} (chain : s.Below a b) : a ≤ b := by
  induction chain with
  | refl => exact Nat.le_refl a
  | tail _ edge ih => exact Nat.le_trans ih (Nat.le_of_lt (shaped.child _ _ edge).1)

theorem Shaped.below_known {s : Store} (shaped : s.Shaped) {a b : Nat} (known : a < s.nodes.size)
    (chain : s.Below a b) : b < s.nodes.size := by
  cases chain with
  | refl => exact known
  | tail _ edge => exact (shaped.child _ _ edge).2.1

theorem below_of_mem (s : Store) (fuel : Nat) (id x : Nat) (met : x ∈ s.below fuel id) : s.Below id x := by
  induction fuel generalizing id with
  | zero => simp [below] at met
  | succ fuel ih =>
    rw [below, List.mem_cons, List.mem_flatMap] at met
    rcases met with rfl | ⟨c, edge, deeper⟩
    · exact .refl
    · exact .head edge (ih c deeper)

theorem Shaped.mem_below {s : Store} (shaped : s.Shaped) (fuel : Nat) (id x : Nat)
    (enough : s.nodes.size ≤ id + fuel) (known : id < s.nodes.size) (chain : s.Below id x) :
    x ∈ s.below fuel id := by
  induction fuel generalizing id with
  | zero => omega
  | succ fuel ih =>
    rw [below, List.mem_cons, List.mem_flatMap]
    rcases Relation.ReflTransGen.cases_head chain with equal | ⟨c, edge, rest⟩
    · exact .inl equal.symm
    · obtain ⟨larger, bounded, _⟩ := shaped.child _ _ edge
      exact .inr ⟨c, edge, ih c (by omega) bounded rest⟩

theorem Shaped.mem_subtree {s : Store} (shaped : s.Shaped) {id : Nat} (known : id < s.nodes.size)
    (x : Nat) : x ∈ s.subtree id ↔ s.Below id x :=
  ⟨below_of_mem s _ id x, shaped.mem_below _ id x (Nat.le_add_left _ _) known⟩

theorem Shaped.mem_walk {s : Store} (shaped : s.Shaped) (x : Nat) :
    x ∈ s.subtree rootId ↔ s.Reachable x :=
  shaped.mem_subtree shaped.nonempty x

-- Walking up. A parent is told by the node itself, so it is known even where the node was taken out.

theorem Shaped.parent_of_reachable {s : Store} (shaped : s.Shaped) {id p : Nat} (reached : s.Reachable id)
    (above : (s.node id).parent = some p) : s.Reachable p ∧ s.Edge p id := by
  cases reached with
  | refl => rw [shaped.orphan] at above; cases above
  | tail chain edge =>
    have same := (shaped.child _ _ edge).2.2
    rw [above] at same
    cases Option.some.inj same
    exact ⟨chain, edge⟩

theorem Shaped.lineage_reachable {s : Store} (shaped : s.Shaped) (fuel : Nat) {id a : Nat}
    (reached : s.Reachable id) (above : a ∈ s.upwards fuel id) : s.Reachable a := by
  induction fuel generalizing id with
  | zero => simp [upwards] at above
  | succ fuel ih =>
    rw [upwards, List.mem_cons] at above
    rcases above with rfl | higher
    · exact reached
    · cases parent : (s.node id).parent with
      | none => simp [parent] at higher
      | some p =>
        rw [parent] at higher
        exact ih (shaped.parent_of_reachable reached parent).1 higher

-- Where a node cannot be reached, the way up from it comes to one that hangs on nothing.
theorem Shaped.lineage_cut {s : Store} (shaped : s.Shaped) (fuel : Nat) {id : Nat} (enough : id < fuel)
    (known : id < s.nodes.size) (apart : ¬ s.Reachable id) :
    ∃ a : Nat, a ∈ s.upwards fuel id ∧ a < s.nodes.size ∧ ¬ s.Attached a := by
  induction fuel generalizing id with
  | zero => omega
  | succ fuel ih =>
    by_cases attached : s.Attached id
    · rcases attached with rfl | ⟨p, edge⟩
      · exact absurd .refl apart
      · obtain ⟨smaller, _, parent⟩ := shaped.child _ _ edge
        have apartParent : ¬ s.Reachable p := fun reached => apart (.tail reached edge)
        obtain ⟨a, above, cut⟩ := ih (by omega) (by omega) apartParent
        refine ⟨a, ?_, cut⟩
        rw [upwards, parent]
        exact List.mem_cons_of_mem _ above
    · exact ⟨id, by simp [upwards], known, attached⟩

theorem Shaped.childNamed_of_edge {s : Store} (shaped : s.Shaped) {p c : Nat} (edge : s.Edge p c) :
    s.childNamed? p (s.node c).name = some c :=
  (shaped.listed p _ c).mpr ⟨edge, rfl⟩

theorem Shaped.named {s : Store} (shaped : s.Shaped) (p c d : Nat) (one : s.Edge p c) (two : s.Edge p d)
    (same : (s.node c).name = (s.node d).name) : c = d := by
  have found := shaped.childNamed_of_edge one
  rw [same, shaped.childNamed_of_edge two] at found
  exact (Option.some.inj found).symm

theorem Shaped.name_of_childNamed_none {s : Store} (shaped : s.Shaped) {p c : Nat} {name : Bytes}
    (missing : s.childNamed? p name = none) (edge : s.Edge p c) : (s.node c).name ≠ name := by
  rintro rfl
  rw [shaped.childNamed_of_edge edge] at missing
  cases missing

theorem Shaped.edge_of_step {s : Store} (shaped : s.Shaped) {id c : Nat} {name : Bytes}
    (found : s.step? id name = some c) : s.Edge id c := by
  unfold step? at found
  split at found
  · rename_i named
    cases Option.some.inj found
    exact ((shaped.listed id name _).mp named).1
  · split at found
    · cases found
    · split at found
      · rename_i d only
        cases Option.some.inj found
        exact (List.mem_filter.mp (by rw [only]; exact List.mem_singleton_self _)).1
      · cases found

theorem Shaped.below_of_steps {s : Store} (shaped : s.Shaped) (names : List Bytes) {id x : Nat}
    (found : names.foldlM s.step? id = some x) : s.Below id x := by
  induction names generalizing id with
  | nil => cases Option.some.inj found; exact .refl
  | cons name rest ih =>
    rw [List.foldlM_cons] at found
    cases first : s.step? id name with
    | none => simp [first] at found
    | some c =>
      rw [first] at found
      exact .head (shaped.edge_of_step first) (ih found)

theorem Shaped.reachable_of_find {s : Store} (shaped : s.Shaped) {path : Bytes} {id : Nat}
    (found : s.find? path = some id) : s.Reachable id := by
  unfold find? at found
  split at found
  · exact shaped.below_of_steps _ found
  · cases found

theorem pathTable_sound {s : Store} {path : Bytes} {id : NodeId} (found : s.pathTable.find? path = some id) :
    id ∈ s.subtree rootId ∧ (s.node id).path = path := by
  rw [pathTable, NodeTable.find_fill] at found
  change (List.find? _ _).or none = some id at found
  rw [Option.or_none] at found
  exact ⟨List.mem_reverse.mp (List.mem_of_find?_eq_some found), by simpa using List.find?_some found⟩

theorem pathTable_complete {s : Store} {id : NodeId} (member : id ∈ s.subtree rootId) :
    ∃ other, s.pathTable.find? (s.node id).path = some other := by
  rw [← Option.isSome_iff_exists, pathTable, NodeTable.find_fill, Option.isSome_or, Bool.or_eq_true]
  exact .inl (List.find?_isSome.mpr ⟨id, List.mem_reverse.mpr member, by simp⟩)

theorem attached_of_reachable {s : Store} {id : Nat} (reached : s.Reachable id) : s.Attached id := by
  cases reached with
  | refl => exact .inl rfl
  | tail _ edge => exact .inr ⟨_, edge⟩

structure Alike (s t : Store) : Prop where
  size : t.nodes.size = s.nodes.size
  name : ∀ id, (t.node id).name = (s.node id).name
  parent : ∀ id, (t.node id).parent = (s.node id).parent
  children : ∀ id, (t.node id).children = (s.node id).children
  childNames : ∀ id, (t.node id).childNames = (s.node id).childNames

theorem Alike.edge {s t : Store} (alike : Alike s t) : t.Edge = s.Edge := by
  funext p c
  simp only [Edge, alike.children]

theorem Alike.shaped {s t : Store} (alike : Alike s t) (shaped : s.Shaped) : t.Shaped where
  nonempty := by rw [alike.size]; exact shaped.nonempty
  orphan := by rw [alike.parent]; exact shaped.orphan
  child p c edge := by
    rw [alike.edge] at edge
    rw [alike.size, alike.parent]
    exact shaped.child p c edge
  parent c positive known := by
    rw [alike.size] at known
    rw [alike.parent]
    exact shaped.parent c positive known
  distinct p := by rw [alike.children]; exact shaped.distinct p
  listed p name c := by
    rw [childNamed?, alike.childNames, alike.edge, alike.name]
    exact shaped.listed p name c

theorem Alike.attached {s t : Store} (alike : Alike s t) : t.Attached = s.Attached := by
  funext id
  simp only [Attached, alike.edge]

theorem Alike.reachable {s t : Store} (alike : Alike s t) : t.Reachable = s.Reachable := by
  funext id
  simp only [Reachable, Below, alike.edge]

theorem Alike.trans {s t u : Store} (one : Alike s t) (two : Alike t u) : Alike s u where
  size := two.size.trans one.size
  name id := (two.name id).trans (one.name id)
  parent id := (two.parent id).trans (one.parent id)
  children id := (two.children id).trans (one.children id)
  childNames id := (two.childNames id).trans (one.childNames id)

theorem alike_modify (s : Store) (id : Nat) (f : Node → Node) (same : ∀ n, (f n).frame = n.frame) :
    Alike s (s.modify id f) where
  size := size_modify s id f
  name other := node_modify_keeps s id other f Node.name fun n => congrArg Prod.fst (same n)
  parent other := node_modify_keeps s id other f Node.parent fun n => congrArg (·.2.1) (same n)
  children other := node_modify_keeps s id other f Node.children fun n => congrArg (·.2.2.1) (same n)
  childNames other := node_modify_keeps s id other f Node.childNames fun n => congrArg (·.2.2.2) (same n)

section Growth

variable {s : Store} {id : Nat} {name : Bytes} (missing : s.childNamed? id name = none)
include missing

theorem child_new : (s.child id name).1 = s.nodes.size := by
  simp [child, missing]

theorem size_child : (s.child id name).2.nodes.size = s.nodes.size + 1 := by
  simp [child, missing, size_modify]

theorem node_child_new (known : id < s.nodes.size) :
    (s.child id name).2.node s.nodes.size =
      { name, path := (s.node id).path ++ name ++ utf8 "/", parent := some id, labels := [],
        fragments := [], children := [], childNames := [], properties := [] } := by
  simp only [child, missing]
  rw [node_modify_other _ _ _ _ (Nat.ne_of_gt known)]
  simp [node, Array.getD_eq_getD_getElem?]

theorem node_child_parent (known : id < s.nodes.size) :
    (s.child id name).2.node id = addChild s.nodes.size name (s.node id) := by
  simp only [child, missing]
  rw [node_modify_self _ _ _ (by simpa using Nat.lt_succ_of_lt known)]
  simp [node, Array.getD_eq_getD_getElem?, Array.getElem?_push, Nat.ne_of_lt known]

theorem node_child_other {other : Nat} (differ : other ≠ id) (old : other ≠ s.nodes.size) :
    (s.child id name).2.node other = s.node other := by
  simp only [child, missing]
  rw [node_modify_other _ _ _ _ differ]
  simp [node, Array.getD_eq_getD_getElem?, Array.getElem?_push, old]

-- What holds of a node apart from its children is not touched by a child that is added below.
theorem node_child_keeps {α : Type} (known : id < s.nodes.size) {other : Nat} (old : other ≠ s.nodes.size)
    (get : Node → α) (same : ∀ n cs names, get { n with children := cs, childNames := names } = get n) :
    get ((s.child id name).2.node other) = get (s.node other) := by
  by_cases equal : other = id
  · subst other
    rw [node_child_parent missing known]
    exact same _ _ _
  · rw [node_child_other missing equal old]

theorem edge_child (known : id < s.nodes.size) (p c : Nat) :
    (s.child id name).2.Edge p c ↔ s.Edge p c ∨ p = id ∧ c = s.nodes.size := by
  by_cases parent : p = id
  · subst p
    simp [Edge, node_child_parent missing known, addChild]
  · by_cases fresh : p = s.nodes.size
    · subst p
      simp [Edge, node_child_new missing known, node_beyond s s.nodes.size (Nat.le_refl _), Node.root, parent]
    · simp [Edge, node_child_other missing parent fresh, parent]

theorem childNamed_child (known : id < s.nodes.size) (p : Nat) (other : Bytes) :
    (s.child id name).2.childNamed? p other =
      if p = id ∧ other = name then some s.nodes.size else s.childNamed? p other := by
  unfold childNamed?
  by_cases parent : p = id
  · subst p
    rw [node_child_parent missing known, addChild, NodeTable.find_put]
    simp
  · by_cases fresh : p = s.nodes.size
    · subst p
      rw [node_child_new missing known, node_beyond s s.nodes.size (Nat.le_refl _)]
      simp [parent, Node.root]
    · rw [node_child_other missing parent fresh]
      simp [parent]

theorem Shaped.grow (shaped : s.Shaped) (known : id < s.nodes.size) : (s.child id name).2.Shaped where
  nonempty := by rw [size_child missing]; exact Nat.succ_pos _
  orphan := by
    have old : rootId ≠ s.nodes.size := Nat.ne_of_lt shaped.nonempty
    rw [node_child_keeps missing known old Node.parent (fun _ _ _ => rfl)]
    exact shaped.orphan
  child p c edge := by
    rw [size_child missing]
    rcases (edge_child missing known p c).mp edge with before | ⟨rfl, rfl⟩
    · obtain ⟨smaller, bounded, parent⟩ := shaped.child p c before
      refine ⟨smaller, Nat.lt_succ_of_lt bounded, ?_⟩
      rw [node_child_keeps missing known (Nat.ne_of_lt bounded) Node.parent (fun _ _ _ => rfl)]
      exact parent
    · exact ⟨known, Nat.lt_succ_self _, by rw [node_child_new missing known]⟩
  parent c positive bounded := by
    rw [size_child missing] at bounded
    by_cases fresh : c = s.nodes.size
    · subst c
      exact ⟨id, known, by rw [node_child_new missing known]⟩
    · rw [node_child_keeps missing known fresh Node.parent (fun _ _ _ => rfl)]
      exact shaped.parent c positive (by omega)
  distinct p := by
    by_cases equal : p = id
    · subst p
      rw [node_child_parent missing known]
      have unused : s.nodes.size ∉ (s.node id).children := fun edge =>
        Nat.lt_irrefl _ (shaped.child id s.nodes.size edge).2.1
      exact List.nodup_append.mpr ⟨shaped.distinct id, List.nodup_singleton _, by
        intro a old b new
        rw [List.mem_singleton] at new
        subst b
        exact fun equal => unused (equal ▸ old)⟩
    · by_cases fresh : p = s.nodes.size
      · subst p
        rw [node_child_new missing known]
        exact List.nodup_nil
      · rw [node_child_other missing equal fresh]
        exact shaped.distinct p
  listed p other c := by
    have nameOld : s.Edge p c → ((s.child id name).2.node c).name = (s.node c).name := fun edge =>
      node_child_keeps missing known (Nat.ne_of_lt (shaped.child p c edge).2.1) Node.name (fun _ _ _ => rfl)
    have nameNew : ((s.child id name).2.node s.nodes.size).name = name := by rw [node_child_new missing known]
    rw [childNamed_child missing known, edge_child missing known]
    split
    · rename_i both
      obtain ⟨rfl, rfl⟩ := both
      constructor
      · rintro ⟨⟩
        exact ⟨.inr ⟨rfl, rfl⟩, nameNew⟩
      · rintro ⟨before | ⟨_, rfl⟩, same⟩
        · rw [nameOld before] at same
          exact absurd same (shaped.name_of_childNamed_none missing before)
        · rfl
    · rename_i apart
      rw [shaped.listed]
      constructor
      · exact fun ⟨edge, same⟩ => ⟨.inl edge, (nameOld edge).trans same⟩
      · rintro ⟨before | ⟨rfl, rfl⟩, same⟩
        · exact ⟨before, (nameOld before).symm.trans same⟩
        · exact absurd ⟨rfl, same.symm.trans nameNew⟩ apart

theorem attached_grow (known : id < s.nodes.size) (x : Nat) :
    (s.child id name).2.Attached x ↔ s.Attached x ∨ x = s.nodes.size := by
  constructor
  · rintro (root | ⟨p, edge⟩)
    · exact .inl (.inl root)
    · rcases (edge_child missing known p x).mp edge with before | ⟨_, fresh⟩
      · exact .inl (.inr ⟨p, before⟩)
      · exact .inr fresh
  · rintro ((root | ⟨p, before⟩) | fresh)
    · exact .inl root
    · exact .inr ⟨p, (edge_child missing known p x).mpr (.inl before)⟩
    · exact .inr ⟨id, (edge_child missing known id x).mpr (.inr ⟨rfl, fresh⟩)⟩

theorem reachable_of_grow (shaped : s.Shaped) (known : id < s.nodes.size) {x : Nat} (old : x < s.nodes.size)
    (reached : (s.child id name).2.Reachable x) : s.Reachable x := by
  induction reached with
  | refl => exact .refl
  | @tail p c _ edge ih =>
    rcases (edge_child missing known p c).mp edge with before | ⟨_, fresh⟩
    · exact .tail (ih (Nat.lt_trans (shaped.child p c before).1 old)) before
    · subst c; exact absurd old (Nat.lt_irrefl _)

end Growth

section Removal

variable {s : Store} (shaped : s.Shaped) {p id : Nat} (edge : s.Edge p id)
include shaped edge

theorem ne_root : id ≠ rootId := by
  rintro rfl
  exact Nat.not_lt_zero p (shaped.child p rootId edge).1

theorem detach_eq : s.detach p (s.node id).name = s.modify p (removeChild id (s.node id).name) := by
  simp [detach, shaped.childNamed_of_edge edge]

theorem size_detach : (s.detach p (s.node id).name).nodes.size = s.nodes.size := by
  rw [detach_eq shaped edge, size_modify]

theorem node_detach_keeps {α : Type} (other : Nat) (get : Node → α)
    (same : ∀ n cs names, get { n with children := cs, childNames := names } = get n) :
    get ((s.detach p (s.node id).name).node other) = get (s.node other) := by
  rw [detach_eq shaped edge]
  exact node_modify_keeps s p other _ get fun n => same n _ _

theorem edge_detach (q x : Nat) :
    (s.detach p (s.node id).name).Edge q x ↔ s.Edge q x ∧ x ≠ id := by
  rw [detach_eq shaped edge]
  by_cases equal : q = p
  · subst q
    have known : p < s.nodes.size := Nat.lt_trans (shaped.child p id edge).1 (shaped.child p id edge).2.1
    simp only [Edge, node_modify_self _ _ _ known, removeChild]
    rw [List.Nodup.mem_erase_iff (shaped.distinct p)]
    exact And.comm
  · simp only [Edge, node_modify_other _ _ _ _ equal]
    refine ⟨fun found => ⟨found, ?_⟩, And.left⟩
    rintro rfl
    have one := (shaped.child q x found).2.2
    have two := (shaped.child p x edge).2.2
    exact equal (Option.some.inj (one.symm.trans two))

theorem childNamed_detach (q : Nat) (other : Bytes) :
    (s.detach p (s.node id).name).childNamed? q other =
      if q = p ∧ other = (s.node id).name then none else s.childNamed? q other := by
  rw [detach_eq shaped edge]
  unfold childNamed?
  by_cases parent : q = p
  · subst q
    have known : p < s.nodes.size := Nat.lt_trans (shaped.child p id edge).1 (shaped.child p id edge).2.1
    rw [node_modify_self _ _ _ known, removeChild, NodeTable.find_erase]
    simp
  · rw [node_modify_other _ _ _ _ parent]
    simp [parent]

theorem Shaped.cut : (s.detach p (s.node id).name).Shaped where
  nonempty := by rw [size_detach shaped edge]; exact shaped.nonempty
  orphan := by
    rw [node_detach_keeps shaped edge rootId Node.parent (fun _ _ _ => rfl)]
    exact shaped.orphan
  child q x found := by
    rw [size_detach shaped edge, node_detach_keeps shaped edge x Node.parent (fun _ _ _ => rfl)]
    exact shaped.child q x ((edge_detach shaped edge q x).mp found).1
  parent x positive known := by
    rw [size_detach shaped edge] at known
    rw [node_detach_keeps shaped edge x Node.parent (fun _ _ _ => rfl)]
    exact shaped.parent x positive known
  distinct q := by
    rw [detach_eq shaped edge]
    by_cases equal : q = p
    · subst q
      have known : p < s.nodes.size := Nat.lt_trans (shaped.child p id edge).1 (shaped.child p id edge).2.1
      rw [node_modify_self _ _ _ known]
      exact (shaped.distinct p).erase id
    · rw [node_modify_other _ _ _ _ equal]
      exact shaped.distinct q
  listed q other c := by
    rw [childNamed_detach shaped edge, edge_detach shaped edge,
      node_detach_keeps shaped edge c Node.name (fun _ _ _ => rfl)]
    split
    · rename_i both
      obtain ⟨rfl, rfl⟩ := both
      refine ⟨nofun, fun ⟨⟨found, differ⟩, same⟩ => absurd (shaped.named q c id found edge same) differ⟩
    · rename_i apart
      rw [shaped.listed]
      refine ⟨fun ⟨found, same⟩ => ⟨⟨found, ?_⟩, same⟩, fun ⟨found, same⟩ => ⟨found.1, same⟩⟩
      rintro rfl
      have parents := (shaped.child q c found).2.2.symm.trans (shaped.child p c edge).2.2
      exact apart ⟨Option.some.inj parents, same.symm⟩

theorem attached_detach (x : Nat) :
    (s.detach p (s.node id).name).Attached x ↔ s.Attached x ∧ x ≠ id := by
  have notRoot := ne_root shaped edge
  constructor
  · rintro (root | ⟨q, found⟩)
    · exact ⟨.inl root, fun equal => notRoot (equal ▸ root)⟩
    · obtain ⟨before, differ⟩ := (edge_detach shaped edge q x).mp found
      exact ⟨.inr ⟨q, before⟩, differ⟩
  · rintro ⟨root | ⟨q, before⟩, differ⟩
    · exact .inl root
    · exact .inr ⟨q, (edge_detach shaped edge q x).mpr ⟨before, differ⟩⟩

theorem below_detach (x : Nat) : (s.detach p (s.node id).name).Below id x ↔ s.Below id x := by
  constructor
  · intro chain
    exact Relation.ReflTransGen.mono (fun q y found => ((edge_detach shaped edge q y).mp found).1) _ _ chain
  · intro chain
    induction chain with
    | refl => exact .refl
    | @tail q y chain step ih =>
      -- Nothing below the node leads back up to it.
      have differ : y ≠ id := fun equal =>
        Nat.lt_irrefl id (Nat.lt_of_le_of_lt (shaped.below_le chain) (equal ▸ (shaped.child q y step).1))
      exact .tail ih ((edge_detach shaped edge q y).mpr ⟨step, differ⟩)

theorem reachable_detach (x : Nat) :
    (s.detach p (s.node id).name).Reachable x ↔ s.Reachable x ∧ ¬ s.Below id x := by
  have notRoot := ne_root shaped edge
  constructor
  · intro reached
    refine ⟨Relation.ReflTransGen.mono (fun q y found => ((edge_detach shaped edge q y).mp found).1) _ _ reached, ?_⟩
    intro under
    -- The way up from a node below the one taken out is the same as before, and ends there.
    induction under with
    | refl =>
      rcases attached_of_reachable reached with root | ⟨q, found⟩
      · exact notRoot root
      · exact ((edge_detach shaped edge q id).mp found).2 rfl
    | @tail q y chain step ih =>
      have parent : ((s.detach p (s.node id).name).node y).parent = some q := by
        rw [node_detach_keeps shaped edge y Node.parent (fun _ _ _ => rfl)]
        exact (shaped.child q y step).2.2
      exact ih ((shaped.cut edge).parent_of_reachable reached parent).1
  · rintro ⟨reached, outside⟩
    induction reached with
    | refl => exact .refl
    | @tail q y chain step ih =>
      have differ : y ≠ id := fun equal => outside (equal ▸ .refl)
      exact .tail (ih fun under => outside (under.tail step)) ((edge_detach shaped edge q y).mpr ⟨step, differ⟩)

end Removal

end Store
end DeviceTree
