import Mathlib
import DeviceTree.Proofs.Merging
import DeviceTree.Tree.Query

namespace DeviceTree.Tree

-- Labels and references lead into the tree, and a block is marked if and only if its node is not there.
structure Described (t : Tree) : Prop where
  labels : ∀ l id, t.label? l = some id → id ∈ t.nodes
  resolved : ∀ target id, t.resolve target = some id → id ∈ t.nodes
  found : ∀ spec id, t.find? spec = some id → id ∈ t.nodes
  marks : ∀ f ∈ t.fragments, ∀ id, f.node = some id → (f.deleted = true ↔ id ∉ t.nodes)

def HandsMarksDown (t : Tree) : Prop :=
  ∀ f ∈ t.fragments, ∀ g ∈ t.fragments, ∀ id above, f.node = some id → g.node = some above →
    above ∈ t.store.lineage id → g.deleted = true → f.deleted = true

theorem mem_nodes_of_atPath {t : Tree} (shaped : t.store.Shaped) (tabled : t.Tabled) {path : Bytes} {id : NodeId}
    (found : t.atPath? path = some id) : id ∈ t.nodes := by
  unfold atPath? at found
  dsimp only at found
  split at found
  · rename_i other listed
    cases Option.some.inj found
    rw [exactly?, tabled] at listed
    exact (Store.pathTable_sound listed).1
  · exact (shaped.mem_walk id).mpr (shaped.reachable_of_find found)

theorem mem_nodes_of_find {t : Tree} (shaped : t.store.Shaped) (tabled : t.Tabled)
    (labels : ∀ l id, t.label? l = some id → id ∈ t.nodes) {spec : Bytes} {id : NodeId}
    (found : t.find? spec = some id) : id ∈ t.nodes := by
  unfold find? at found
  split at found
  · split at found
    · exact mem_nodes_of_atPath shaped tabled found
    · exact labels _ id found
  · split at found
    · exact labels _ id found
    · exact mem_nodes_of_atPath shaped tabled found
    · exact labels _ id found

-- A label was given by a block that is still unmarked, so it is enough that the marks are right.
theorem described_of_marks {t : Tree} {m : Merge} (valid : m.Valid) (tabled : t.Tabled) (store : t.store = m.store)
    (fragments : t.fragments = m.fragments) (owners : t.labels = m.labels)
    (marks : ∀ f ∈ t.fragments, ∀ id, f.node = some id → (f.deleted = true ↔ id ∉ t.nodes)) : t.Described := by
  have shaped : t.store.Shaped := store ▸ valid.shaped
  have labels : ∀ l id, t.label? l = some id → id ∈ t.nodes := by
    intro l id found
    obtain ⟨o, owner, rfl⟩ := Option.map_eq_some_iff.mp found
    rw [owners] at owner
    obtain ⟨i, f, present, node, unmarked⟩ := (valid.owned o (List.mem_of_find?_eq_some owner)).unmarked
    have member : f ∈ t.fragments := fragments ▸ Array.mem_of_getElem? present
    by_contra outside
    rw [(marks f member o.node node).mpr outside] at unmarked
    cases unmarked
  refine ⟨labels, ?_, fun spec id found => mem_nodes_of_find shaped tabled labels found, marks⟩
  intro target id found
  cases target with
  | label l => exact labels l id found
  | path p => exact mem_nodes_of_atPath shaped tabled found

theorem described_iff_handsMarksDown (name : Bytes) (roots : List Bytes) (files : List File)
    (bindings : Option Catalog) :
    (merge name roots files bindings).Described ↔ (merge name roots files bindings).HandsMarksDown := by
  have valid := Merge.roots_valid files roots
  constructor
  · intro described f presentF g presentG id above nodeF nodeG line deleted
    refine (described.marks f presentF id nodeF).mpr fun inside => ?_
    have reached := (valid.shaped.mem_walk id).mp inside
    have reachedAbove := valid.shaped.lineage_reachable _ reached line
    exact (described.marks g presentG above nodeG).mp deleted ((valid.shaped.mem_walk above).mpr reachedAbove)
  · intro handed
    refine described_of_marks valid rfl rfl rfl rfl ?_
    intro f member id node
    obtain ⟨i, present⟩ := Array.mem_iff_getElem?.mp member
    have known := (valid.listed i f id present node).1
    constructor
    · intro deleted inside
      exact valid.marked i f id present node deleted ((valid.shaped.mem_walk id).mp inside)
    · intro outside
      -- Above a node that is not in the tree stands one that was cut off, and that one has a mark.
      have apart : ¬ Store.Reachable (merge name roots files bindings).store id :=
        fun reached => outside ((valid.shaped.mem_walk id).mpr reached)
      obtain ⟨a, line, bounded, cut⟩ := valid.shaped.lineage_cut _ known known apart
      obtain ⟨j, g, presentG, nodeG, deleted⟩ := valid.taken a bounded cut
      exact handed f member g (Array.mem_of_getElem? presentG) id a node nodeG line deleted

-- A block that deletes its own node and goes on: the node below it stays labelled and unmarked.
def regrown : Tree :=
  let text := utf8 "/ \x7b a: a \x7b /delete-node/ &a; l: b \x7b \x7d; \x7d; \x7d;"
  merge [] [utf8 "/a.dts"] [File.ofText (.ofTable []) [] (utf8 "/a.dts") text] none

theorem regrown_not_described : ¬ regrown.Described := by
  intro described
  have label : regrown.label? (utf8 "l") = some 2 := by cbv
  have walk : regrown.nodes = [0] := by cbv
  have inside := described.labels (utf8 "l") 2 label
  rw [walk] at inside
  exact absurd inside (by decide)

end DeviceTree.Tree
