import DeviceTree.Proofs.Naming

namespace DeviceTree.Merge

-- The two tables, written separately.
structure Tables where
  nodes : List (Bytes × NodeId)
  places : List (Bytes × Bytes × Range)

namespace Tables

def put (t : Tables) (d : LabelOwner) : Tables where
  nodes := t.nodes.filter (·.1 != d.name) ++ [(d.name, d.node)]
  places := t.places.filter (·.1 != d.name) ++ [(d.name, d.file, d.range)]

-- A label of a node that is taken out is dropped from both if it names this node.
def drop (id : NodeId) (t : Tables) (x : Bytes) : Tables :=
  if t.nodes.lookup x = some id then ⟨t.nodes.filter (·.1 != x), t.places.filter (·.1 != x)⟩ else t

def of (owners : List LabelOwner) : Tables :=
  ⟨owners.map fun o => (o.name, o.node), owners.map fun o => (o.name, o.file, o.range)⟩

theorem put_of (owners : List LabelOwner) (d : LabelOwner) :
    (of owners).put d = of (owners.filter (·.name != d.name) ++ [d]) := by
  simp only [put, of, List.filter_map, List.map_append]
  rfl

theorem keys_of (owners : List LabelOwner) :
    (of owners).nodes.map Prod.fst = owners.map LabelOwner.name ∧ (of owners).places.map Prod.fst = owners.map LabelOwner.name := by
  simp [of]

theorem lookup_of (owners : List LabelOwner) (x : Bytes) :
    (of owners).nodes.lookup x = (owners.find? (·.name = x)).map (·.node) := by
  induction owners with
  | nil => rfl
  | cons o rest ih =>
    by_cases same : o.name = x
    · simp [of, same]
    · have apart : (x == o.name) = false := beq_false_of_ne (Ne.symm same)
      simp only [of] at ih
      simp [of, List.lookup_cons, apart, same, ih]

theorem lookup_of_iff {owners : List LabelOwner} (unique : (owners.map LabelOwner.name).Nodup) {x : Bytes} {id : NodeId} :
    (of owners).nodes.lookup x = some id ↔ ∃ o ∈ owners, o.name = x ∧ o.node = id := by
  rw [lookup_of, Option.map_eq_some_iff]
  constructor
  · rintro ⟨o, found, node⟩
    exact ⟨o, List.mem_of_find?_eq_some found, by simpa using List.find?_some found, node⟩
  · rintro ⟨o, member, rfl, node⟩
    cases found : owners.find? (·.name = o.name) with
    | none => simpa using List.find?_eq_none.mp found o member
    | some p =>
      have same : p.name = o.name := by simpa using List.find?_some found
      cases List.inj_on_of_nodup_map unique (List.mem_of_find?_eq_some found) member same
      exact ⟨o, rfl, node⟩

theorem places_of {owners : List LabelOwner} (unique : (owners.map LabelOwner.name).Nodup) {o : LabelOwner}
    (member : o ∈ owners) : (of owners).places.lookup o.name = some (o.file, o.range) := by
  induction owners with
  | nil => cases member
  | cons p rest ih =>
    obtain ⟨fresh, unique⟩ := List.nodup_cons.mp unique
    rcases List.mem_cons.mp member with rfl | later
    · simp [of]
    · have apart : (o.name == p.name) = false := by
        refine beq_false_of_ne fun same => fresh (same ▸ List.mem_map_of_mem later)
      have found := ih unique later
      simp only [of] at found
      simp [of, List.lookup_cons, apart, found]

theorem drop_of {owners : List LabelOwner} (unique : (owners.map LabelOwner.name).Nodup) (id : NodeId) (x : Bytes) :
    (of owners).drop id x = of (owners.filter fun o => !(o.node = id && o.name = x)) := by
  unfold drop
  split
  · rename_i named
    obtain ⟨p, member, same, node⟩ := (lookup_of_iff unique).mp named
    have keeps : ∀ o ∈ owners, (o.name != x) = !(o.node = id && o.name = x) := by
      intro o here
      by_cases equal : o.name = x
      · cases List.inj_on_of_nodup_map unique here member (equal.trans same.symm)
        simp [equal, node]
      · simp [equal]
    simp only [of, List.filter_map]
    rw [← List.filter_congr keeps]
    rfl
  · rename_i other
    have keeps : ∀ o ∈ owners, (!(o.node = id && o.name = x)) = true := by
      intro o here
      by_contra dropped
      have both : o.node = id ∧ o.name = x := by simpa using dropped
      exact other ((lookup_of_iff unique).mpr ⟨o, here, both.2, both.1⟩)
    rw [List.filter_eq_self.mpr keeps]

theorem drops_of (id : NodeId) (names : List Bytes) {owners : List LabelOwner}
    (unique : (owners.map LabelOwner.name).Nodup) :
    names.foldl (drop id) (of owners) = of (owners.filter fun o => !(o.node = id && names.elem o.name)) := by
  induction names generalizing owners with
  | nil => simp
  | cons x rest ih =>
    rw [List.foldl_cons, drop_of unique, ih ((List.filter_sublist.map _).nodup unique), List.filter_filter]
    congr 2
    funext o
    by_cases here : o.node = id <;> by_cases same : o.name = x <;> simp [here, same]

end Tables

def declaredIn (f : Fragment) : List LabelOwner :=
  match f.node with
  | none => []
  | some id => f.decl.head.labels.map fun l => ⟨l.name, id, f.file, l.range⟩

def declared (m : Merge) : List LabelOwner := m.fragments.toList.flatMap declaredIn

def latest? (given : List LabelOwner) (x : Bytes) (id : NodeId) : Option LabelOwner :=
  given.reverse.find? fun d => d.name = x && d.node = id

theorem latest_append (given : List LabelOwner) (d : LabelOwner) (x : Bytes) (id : NodeId) :
    latest? (given ++ [d]) x id = if d.name = x ∧ d.node = id then some d else latest? given x id := by
  unfold latest?
  rw [List.reverse_append, List.reverse_singleton, List.singleton_append, List.find?_cons]
  by_cases same : d.name = x <;> by_cases here : d.node = id <;> simp [same, here]

-- A merge between two steps: the labels of the block just opened that are still to give, and the nodes that a
-- deletion still has to take out.
structure Stage where
  merge : Merge
  giving : List LabelOwner
  retiring : List NodeId
  tables : Tables

namespace Stage

def start : Stage := ⟨.empty, [], [], ⟨[], []⟩⟩

end Stage

inductive Step : Stage → Stage → Prop where
  | note (m : Merge) (t : Tables) (files : List Bytes) {more : List Diagnostic} (plain : ∀ d ∈ more, d.finding.Plain) :
      Step ⟨m, [], [], t⟩ ⟨{ m with files, diagnostics := m.diagnostics ++ more }, [], [], t⟩
  | orphan (m : Merge) (t : Tables) (file : Bytes) (decl : NodeDecl) :
      Step ⟨m, [], [], t⟩ ⟨(m.openBlock file decl none).2, [], [], t⟩
  | grow {m : Merge} (t : Tables) {id : Nat} {name : Bytes} (known : id < m.store.nodes.size)
      (missing : m.store.childNamed? id name = none) :
      Step ⟨m, [], [], t⟩ ⟨{ m with store := (m.store.child id name).2 }, [], [], t⟩
  | block {m : Merge} (t : Tables) (file : Bytes) (decl : NodeDecl) {id : Nat} (known : id < m.store.nodes.size) :
      Step ⟨m, [], [], t⟩ ⟨m.addBlock file decl id, declaredIn ⟨file, decl, some id, false⟩, [], t⟩
  | give (m : Merge) (t : Tables) (d : LabelOwner) (rest : List LabelOwner) :
      Step ⟨m, d :: rest, [], t⟩ ⟨m.addLabel d.file d.node ⟨d.name, d.range⟩, rest, [], t.put d⟩
  | set (m : Merge) (t : Tables) (id : Nat) (p : Property) : Step ⟨m, [], [], t⟩ ⟨m.setProperty (some id) p, [], [], t⟩
  | erase (m : Merge) (t : Tables) (id : Nat) (name : Bytes) : Step ⟨m, [], [], t⟩ ⟨m.eraseProperty id name, [], [], t⟩
  | detach {m : Merge} (t : Tables) {p id : Nat} (edge : m.store.Edge p id) :
      Step ⟨m, [], [], t⟩ ⟨{ m with store := m.store.detach p (m.store.node id).name }, [],
        (m.store.detach p (m.store.node id).name).subtree id, t⟩
  | retire (m : Merge) (t : Tables) (id : NodeId) (rest : List NodeId) :
      Step ⟨m, [], id :: rest, t⟩ ⟨m.retire id, [], rest, (m.store.node id).labels.foldl (Tables.drop id) t⟩

abbrev Steps : Stage → Stage → Prop := Relation.ReflTransGen Step

theorem gives_steps (file : Bytes) (id : NodeId) (labels : List Label) (m : Merge) (t : Tables) :
    ∃ t', Steps ⟨m, labels.map fun l => ⟨l.name, id, file, l.range⟩, [], t⟩
      ⟨labels.foldl (fun m l => m.addLabel file id l) m, [], [], t'⟩ := by
  induction labels generalizing m t with
  | nil => exact ⟨t, .refl⟩
  | cons l rest ih =>
    obtain ⟨t', steps⟩ := ih (m.addLabel file id l) (t.put ⟨l.name, id, file, l.range⟩)
    exact ⟨t', .head (.give m t ⟨l.name, id, file, l.range⟩ _) steps⟩

theorem retires_steps (ids : List NodeId) (m : Merge) (t : Tables) :
    ∃ t', Steps ⟨m, [], ids, t⟩ ⟨ids.foldl retire m, [], [], t'⟩ := by
  induction ids generalizing m t with
  | nil => exact ⟨t, .refl⟩
  | cons id rest ih =>
    obtain ⟨t', steps⟩ := ih (m.retire id) ((m.store.node id).labels.foldl (Tables.drop id) t)
    exact ⟨t', .head (.retire m t id rest) steps⟩

theorem block_steps {m : Merge} (t : Tables) (file : Bytes) (decl : NodeDecl) {id : Nat} (known : id < m.store.nodes.size) :
    ∃ t', Steps ⟨m, [], [], t⟩ ⟨(m.openBlock file decl (some id)).2, [], [], t'⟩ := by
  obtain ⟨t', steps⟩ := gives_steps file id decl.head.labels (m.addBlock file decl id) t
  exact ⟨t', .head (.block t file decl known) steps⟩

theorem Move.steps {v : Vocabulary} {m n : Merge} (move : Move v m n) (valid : Valid m) (t : Tables) :
    ∃ t', Steps ⟨m, [], [], t⟩ ⟨n, [], [], t'⟩ := by
  cases move with
  | note files plain => exact ⟨t, .single (.note m t files plain)⟩
  | orphan file decl => exact ⟨t, .single (.orphan m t file decl)⟩
  | block file found heads => exact block_steps t file _ (found.attached valid).1
  | @grow file decl id name known missing spelled heads =>
    have inside : m.store.nodes.size < (m.store.child id name).2.nodes.size := by
      rw [Store.size_child missing]
      exact Nat.lt_succ_self _
    obtain ⟨t', steps⟩ := block_steps (m := { m with store := (m.store.child id name).2 }) t file decl inside
    exact ⟨t', .head (.grow t known missing) steps⟩
  | set known spelled => exact ⟨t, .single (.set m t _ _)⟩
  | erase known name => exact ⟨t, .single (.erase m t _ name)⟩
  | @delete file d id p found parent =>
    have edge := found.edge valid parent
    obtain ⟨t', steps⟩ := retires_steps ((m.store.detach p (m.store.node id).name).subtree id)
      { m with store := m.store.detach p (m.store.node id).name } t
    rw [deleteNode_eq valid edge]
    exact ⟨t', .head (.detach t edge) steps⟩

theorem Moves.steps {v : Vocabulary} {m n : Merge} (moves : Moves v m n) (valid : Valid m) (t : Tables) :
    ∃ t', Steps ⟨m, [], [], t⟩ ⟨n, [], [], t'⟩ := by
  induction moves with
  | refl => exact ⟨t, .refl⟩
  | tail before move ih =>
    obtain ⟨t', steps⟩ := ih
    obtain ⟨t'', more⟩ := move.steps (Moves.valid before valid) t'
    exact ⟨t'', steps.trans more⟩

theorem addLabel_single {m : Merge} (single : ∀ id : Nat, (m.store.node id).labels.Nodup) (file : Bytes) (id : Nat)
    (l : Label) (i : Nat) : ((m.addLabel file id l).store.node i).labels.Nodup := by
  have lost : ∀ i : Nat, ((m.loseLabel file id l).store.node i).labels.Nodup := by
    unfold loseLabel
    split
    · split
      · exact single
      · exact Store.each_modify (P := fun n => n.labels.Nodup) single _ fun n before => before.erase _
    · exact single
  rw [addLabel_eq]
  refine Store.each_modify (P := fun n => n.labels.Nodup) lost id (fun n before => ?_) i
  split
  · exact before
  · rename_i fresh
    simp only [List.elem_eq_contains, List.contains_iff_mem] at fresh
    exact before.append (List.nodup_singleton _) (List.disjoint_singleton.mpr fresh)

structure Labelled (m : Merge) : Prop where
  shaped : m.store.Shaped
  single : ∀ id : Nat, (m.store.node id).labels.Nodup
  lettered : Lettered m
  shown : ∀ o ∈ m.labels, o.name ∈ (m.store.node o.node).labels

namespace Labelled

variable {m : Merge} (labelled : Labelled m)
include labelled

theorem known {o : LabelOwner} (member : o ∈ m.labels) : o.node < m.store.nodes.size := by
  by_contra beyond
  have present := labelled.shown o member
  rw [Store.node_beyond _ _ (Nat.not_lt.mp beyond)] at present
  cases present

theorem of_same {n : Merge} (alike : Store.Alike m.store n.store)
    (labels : ∀ id : Nat, (n.store.node id).labels = (m.store.node id).labels) (owners : n.labels = m.labels) : Labelled n where
  shaped := alike.shaped labelled.shaped
  single id := labels id ▸ labelled.single id
  lettered := by
    refine ⟨owners ▸ labelled.lettered.unique, fun id reached x present => ?_⟩
    rw [alike.reachable] at reached
    rw [labels] at present
    rw [owners]
    exact labelled.lettered.held id reached x present
  shown o member := by
    rw [owners] at member
    rw [labels]
    exact labelled.shown o member

theorem grow {id : Nat} {name : Bytes} (inside : id < m.store.nodes.size) (missing : m.store.childNamed? id name = none) :
    Labelled { m with store := (m.store.child id name).2 } := by
  have grown := labelled.shaped.grow missing inside
  have keeps : ∀ i : Nat, i ≠ m.store.nodes.size → ((m.store.child id name).2.node i).labels = (m.store.node i).labels :=
    fun i old => Store.node_child_keeps missing inside old Node.labels fun _ _ _ => rfl
  have fresh : ((m.store.child id name).2.node m.store.nodes.size).labels = [] := by
    rw [Store.node_child_new missing inside]
  refine ⟨grown, fun i => ?_, ⟨labelled.lettered.unique, fun i reached x present => ?_⟩, fun o member => ?_⟩
  · by_cases new : i = m.store.nodes.size
    · rw [new, fresh]
      exact List.nodup_nil
    · rw [keeps i new]
      exact labelled.single i
  · by_cases new : i = m.store.nodes.size
    · rw [new, fresh] at present
      cases present
    · rw [keeps i new] at present
      have bounded := grown.below_known grown.nonempty reached
      rw [Store.size_child missing] at bounded
      exact labelled.lettered.held i (Store.reachable_of_grow missing labelled.shaped inside (by omega) reached) x present
  · rw [keeps o.node (Nat.ne_of_lt (labelled.known member))]
    exact labelled.shown o member

theorem give (file : Bytes) {id : Nat} (l : Label) (inside : id < m.store.nodes.size) :
    Labelled (m.addLabel file id l) := by
  have quiet := quiet_addLabel m file id l
  refine ⟨quiet.alike.shaped labelled.shaped, addLabel_single labelled.single file id l,
    addLabel_lettered labelled.single labelled.lettered file id l, fun o member => ?_⟩
  · rcases (mem_addLabel m file id l o).mp member with ⟨old, differ⟩ | rfl
    · exact mem_labels_gainLabel file id l (mem_labels_loseLabel file id l differ (labelled.shown o old))
    · have bounded : id < (m.loseLabel file id l).store.nodes.size := by
        rw [(quiet_loseLabel m file id l).alike.size]
        exact inside
      exact gained_label (m.loseLabel file id l) file l bounded

theorem detach {p id : Nat} (edge : m.store.Edge p id) :
    Labelled { m with store := m.store.detach p (m.store.node id).name } := by
  have keeps : ∀ i : Nat, ((m.store.detach p (m.store.node id).name).node i).labels = (m.store.node i).labels :=
    fun i => Store.node_detach_keeps labelled.shaped edge i Node.labels fun _ _ _ => rfl
  refine ⟨labelled.shaped.cut edge, fun i => keeps i ▸ labelled.single i,
    ⟨labelled.lettered.unique, fun i reached x present => ?_⟩, fun o member => ?_⟩
  · rw [keeps] at present
    exact labelled.lettered.held i ((Store.reachable_detach labelled.shaped edge i).mp reached).1 x present
  · rw [keeps]
    exact labelled.shown o member

theorem retire {id : Nat} (apart : ¬ m.store.Reachable id) : Labelled (m.retire id) := by
  have fewer : (m.retire id).labels.Sublist m.labels := List.filter_sublist
  refine ⟨labelled.shaped, labelled.single, ⟨(fewer.map _).nodup labelled.lettered.unique, fun i reached x present => ?_⟩,
    fun o member => labelled.shown o (fewer.subset member)⟩
  obtain ⟨o, member, named, node⟩ := labelled.lettered.held i reached x present
  refine ⟨o, List.mem_filter.mpr ⟨member, ?_⟩, named, node⟩
  have other : o.node ≠ id := fun same => apart (same ▸ node ▸ reached)
  simp [other]

end Labelled

-- The invariant of a run of steps.
structure Kept (s : Stage) : Prop where
  labelled : Labelled s.merge
  tables : s.tables = .of s.merge.labels
  known : ∀ d ∈ s.giving, d.node < s.merge.store.nodes.size
  apart : ∀ id ∈ s.retiring, ¬ s.merge.store.Reachable id
  dated : ∃ given, s.merge.declared = given ++ s.giving ∧
    ∀ o ∈ s.merge.labels, latest? given o.name o.node = some o

theorem declared_push (m : Merge) (f : Fragment) :
    declared { m with fragments := m.fragments.push f } = m.declared ++ declaredIn f := by
  simp [declared]

theorem declared_retire (m : Merge) (id : NodeId) : (m.retire id).declared = m.declared := by
  have same : (m.retire id).fragments.toList.map declaredIn = m.fragments.toList.map declaredIn := by
    refine List.ext_getElem? fun i => ?_
    simp only [List.getElem?_map, Array.getElem?_toList, retire, fragments_mark, Option.map_map]
    refine congrFun (congrArg Option.map (funext fun f => ?_)) _
    dsimp only [Function.comp_apply]
    split <;> rfl
  simp only [declared, List.flatMap_def, same]

theorem start_kept : Kept .start where
  labelled := by
    have bare : ∀ i : Nat, (Store.empty.node i).labels = [] := by
      intro i
      cases i <;> rfl
    refine ⟨empty_valid.shaped, fun i => ?_, (empty_lawful .unrestricted).lettered, List.forall_mem_nil _⟩
    rw [Stage.start, Merge.empty, bare]
    exact List.nodup_nil
  tables := rfl
  known := List.forall_mem_nil _
  apart := List.forall_mem_nil _
  dated := ⟨[], rfl, List.forall_mem_nil _⟩

theorem Kept.of_same {m n : Merge} {t : Tables} (kept : Kept ⟨m, [], [], t⟩) (alike : Store.Alike m.store n.store)
    (labels : ∀ id : Nat, (n.store.node id).labels = (m.store.node id).labels) (owners : n.labels = m.labels)
    (blocks : n.declared = m.declared) : Kept ⟨n, [], [], t⟩ where
  labelled := kept.labelled.of_same alike labels owners
  tables := owners.symm ▸ kept.tables
  known := List.forall_mem_nil _
  apart := List.forall_mem_nil _
  dated := by
    obtain ⟨given, all, dated⟩ := kept.dated
    exact ⟨given, blocks.trans all, owners.symm ▸ dated⟩

theorem Step.kept {s t : Stage} (step : Step s t) (kept : Kept s) : Kept t := by
  cases step with
  | note m t files plain => exact kept.of_same (Quiet.refl m).alike (fun _ => rfl) rfl rfl
  | orphan m t file decl =>
    refine kept.of_same (Quiet.refl m).alike (fun _ => rfl) rfl ?_
    exact (declared_push m _).trans (List.append_nil _)
  | set m t id p =>
    exact kept.of_same (quiet_setProperty m id p).alike (fun i => Store.node_modify_keeps m.store id i _ Node.labels fun _ => rfl)
      rfl rfl
  | erase m t id name =>
    exact kept.of_same (quiet_eraseProperty m id name).alike
      (fun i => Store.node_modify_keeps m.store id i _ Node.labels fun _ => rfl) rfl rfl
  | grow t known missing =>
    exact ⟨kept.labelled.grow known missing, kept.tables, List.forall_mem_nil _, List.forall_mem_nil _, kept.dated⟩
  | @block m t file decl id known =>
    have alike := alike_addBlock m file decl id
    refine ⟨kept.labelled.of_same alike (fun i => Store.node_modify_keeps m.store id i _ Node.labels fun _ => rfl) rfl,
      kept.tables, fun d member => ?_, List.forall_mem_nil _, ?_⟩
    · obtain ⟨l, -, rfl⟩ := List.mem_map.mp member
      rw [alike.size]
      exact known
    · obtain ⟨given, all, dated⟩ := kept.dated
      refine ⟨given, ?_, dated⟩
      rw [List.append_nil] at all
      exact (declared_push m _).trans (all ▸ rfl)
  | give m t d rest =>
    obtain ⟨given, all, dated⟩ := kept.dated
    have inside := kept.known d List.mem_cons_self
    have quiet := quiet_addLabel m d.file d.node ⟨d.name, d.range⟩
    refine ⟨kept.labelled.give d.file ⟨d.name, d.range⟩ inside, ?_, fun e member => ?_, List.forall_mem_nil _,
      given ++ [d], ?_, fun o member => ?_⟩
    · have tables : t = .of m.labels := kept.tables
      have owners : (m.addLabel d.file d.node ⟨d.name, d.range⟩).labels = m.labels.filter (·.name != d.name) ++ [d] := by
        rw [addLabel_eq, gainLabel, labels_loseLabel]
      rw [tables, Tables.put_of, owners]
    · rw [quiet.alike.size]
      exact kept.known e (List.mem_cons_of_mem _ member)
    · rw [List.append_assoc]
      exact (congrArg (fun blocks => blocks.toList.flatMap declaredIn) quiet.blocks).trans all
    · rw [latest_append]
      rcases (mem_addLabel m d.file d.node ⟨d.name, d.range⟩ o).mp member with ⟨old, differ⟩ | rfl
      · rw [if_neg (fun same => differ same.1.symm)]
        exact dated o old
      · exact if_pos ⟨rfl, rfl⟩
  | @detach m t p id edge =>
    refine ⟨kept.labelled.detach edge, kept.tables, List.forall_mem_nil _, fun x member => ?_, kept.dated⟩
    have under := Store.below_of_mem _ _ _ _ member
    rw [Store.below_detach kept.labelled.shaped edge] at under
    rw [Store.reachable_detach kept.labelled.shaped edge]
    exact fun reached => reached.2 under
  | retire m t id rest =>
    refine ⟨kept.labelled.retire (kept.apart id List.mem_cons_self), ?_, kept.known,
      fun x member => kept.apart x (List.mem_cons_of_mem _ member), ?_⟩
    · have tables : t = .of m.labels := kept.tables
      rw [tables, Tables.drops_of id _ kept.labelled.lettered.unique]
      rfl
    · obtain ⟨given, all, dated⟩ := kept.dated
      refine ⟨given, (declared_retire m id).trans all, fun o member => ?_⟩
      exact dated o (List.mem_filter.mp member).1

theorem Steps.kept {s t : Stage} (steps : Steps s t) (kept : Kept s) : Kept t := by
  induction steps with
  | refl => exact kept
  | tail _ step ih => exact step.kept ih

def Stage.given (s : Stage) : List LabelOwner := s.merge.declared.take (s.merge.declared.length - s.giving.length)

theorem Kept.latest {s : Stage} (kept : Kept s) {o : LabelOwner} (member : o ∈ s.merge.labels) :
    latest? s.given o.name o.node = some o := by
  obtain ⟨given, all, dated⟩ := kept.dated
  have same : s.given = given := by
    rw [Stage.given, all, List.length_append, Nat.add_sub_cancel, List.take_left]
  rw [same]
  exact dated o member

theorem Kept.lookup_iff {s : Stage} (kept : Kept s) {x : Bytes} {id : NodeId} :
    s.tables.nodes.lookup x = some id ↔ ∃ o ∈ s.merge.labels, o.name = x ∧ o.node = id := by
  rw [kept.tables]
  exact Tables.lookup_of_iff kept.labelled.lettered.unique

-- The two tables have the same labels. A label names one node, which lists it once and whose latest declaration of it
-- is in the other table; a node of the tree lists only labels that name it, so that no two list the same.
structure Exclusive (s : Stage) : Prop where
  keys : s.tables.nodes.map Prod.fst = s.tables.places.map Prod.fst
  keyed : (s.tables.nodes.map Prod.fst).Nodup
  named : ∀ x, s.merge.lookup (.label x) = s.tables.nodes.lookup x
  once : ∀ x id, s.tables.nodes.lookup x = some id → (s.merge.store.node id).labels.count x = 1
  placed : ∀ x id, s.tables.nodes.lookup x = some id → ∃ d, latest? s.given x id = some d ∧
    s.tables.places.lookup x = some (d.file, d.range)
  held : ∀ id : Nat, s.merge.store.Reachable id → ∀ x ∈ (s.merge.store.node id).labels, s.tables.nodes.lookup x = some id
  apart : ∀ i j : Nat, s.merge.store.Reachable i → s.merge.store.Reachable j → ∀ x ∈ (s.merge.store.node i).labels,
    x ∈ (s.merge.store.node j).labels → i = j

theorem Kept.exclusive {s : Stage} (kept : Kept s) : Exclusive s := by
  have labelled := kept.labelled
  have held : ∀ id : Nat, s.merge.store.Reachable id → ∀ x ∈ (s.merge.store.node id).labels,
      s.tables.nodes.lookup x = some id := by
    intro id reached x present
    exact kept.lookup_iff.mpr (labelled.lettered.held id reached x present)
  refine ⟨?_, ?_, fun x => ?_, fun x id named => ?_, fun x id named => ?_, held, ?_⟩
  · rw [kept.tables, (Tables.keys_of _).1, (Tables.keys_of _).2]
  · rw [kept.tables, (Tables.keys_of _).1]
    exact labelled.lettered.unique
  · rw [kept.tables, Tables.lookup_of]
    rfl
  · obtain ⟨o, member, rfl, rfl⟩ := kept.lookup_iff.mp named
    exact List.count_eq_one_of_mem (labelled.single o.node) (labelled.shown o member)
  · obtain ⟨o, member, rfl, rfl⟩ := kept.lookup_iff.mp named
    refine ⟨o, kept.latest member, ?_⟩
    rw [kept.tables, Tables.places_of labelled.lettered.unique member]
  · intro i j one two x left right
    exact Option.some.inj ((held i one x left).symm.trans (held j two x right))

-- A label goes over to another node, and it is told where the node that loses it last declared it.
structure Handover (s t : Stage) (d : Diagnostic) (x : Bytes) (loser : NodeId) (old new : LabelOwner) : Prop where
  finding : d.finding = .labelMoved x (s.merge.store.node new.node).path new.file new.range.start.line
  named : s.tables.nodes.lookup x = some loser
  shown : x ∈ (s.merge.store.node loser).labels
  lost : x ∉ (t.merge.store.node loser).labels
  gained : t.tables.nodes.lookup x = some new.node
  other : new.node ≠ loser
  latest : latest? s.given x loser = some old
  file : d.file = old.file
  range : d.range = old.range

theorem Step.told {s t : Stage} (step : Step s t) (kept : Kept s) :
    ∃ more, t.merge.diagnostics = s.merge.diagnostics ++ more ∧ ∀ d ∈ more, ∀ x path file line,
      d.finding = .labelMoved x path file line → ∃ loser old new, Handover s t d x loser old new := by
  have after := step.kept kept
  cases step with
  | @note m t files more plain =>
    refine ⟨more, rfl, fun d member x path file line finding => ?_⟩
    exact absurd finding (plain d member x path file line)
  | give m t d rest =>
    cases owner : m.owner? d.name with
    | none => exact ⟨[], by simp [addLabel, owner], List.forall_mem_nil _⟩
    | some o =>
      by_cases same : o.node = d.node
      · exact ⟨[], by simp [addLabel, owner, same], List.forall_mem_nil _⟩
      · have member : o ∈ m.labels := List.mem_of_find?_eq_some owner
        have name : o.name = d.name := by simpa using List.find?_some owner
        refine ⟨[⟨o.file, o.range, .labelMoved d.name (m.store.node d.node).path d.file d.range.start.line⟩],
          by simp [addLabel, owner, same, report], List.forall_mem_singleton.mpr fun x path file line finding => ?_⟩
        cases finding
        have lost := lost_label (l := ⟨d.name, d.range⟩) d.file owner same (kept.labelled.single o.node)
        refine ⟨o.node, o, d, rfl, kept.lookup_iff.mpr ⟨o, member, name, rfl⟩, name ▸ kept.labelled.shown o member, ?_, ?_,
          Ne.symm same, name ▸ kept.latest member, rfl, rfl⟩
        · rw [addLabel_eq]
          simp only [gainLabel, Store.node_modify_other _ _ _ _ same]
          exact lost
        · exact after.lookup_iff.mpr ⟨d, (mem_addLabel m d.file d.node ⟨d.name, d.range⟩ d).mpr (.inr rfl), rfl, rfl⟩
  | _ => exact ⟨[], (List.append_nil _).symm, List.forall_mem_nil _⟩

end DeviceTree.Merge

namespace DeviceTree.Tree
open Merge

-- A merge is a run of steps. After every step that a run can reach, ownership of labels is exclusive, and a label that
-- is told to have moved is told at the latest declaration of the node that lost it.
theorem merge_labels_exclusive (name : Bytes) (roots : List Bytes) (files : List File) (bindings : Option Catalog) :
    (∃ m t, Steps .start ⟨m, [], [], t⟩ ∧ (merge name roots files bindings).store = m.store ∧
      (merge name roots files bindings).labels = m.labels ∧ (merge name roots files bindings).fragments = m.fragments ∧
      m.diagnostics <:+ (merge name roots files bindings).diagnostics) ∧
    ∀ s, Steps .start s → Exclusive s ∧ ∀ t, Step s t → ∃ more, t.merge.diagnostics = s.merge.diagnostics ++ more ∧
      ∀ d ∈ more, ∀ x path file line, d.finding = .labelMoved x path file line →
        ∃ loser old new, Handover s t d x loser old new := by
  refine ⟨?_, fun s steps => ?_⟩
  · obtain ⟨t, steps⟩ := (roots_moves (fun _ _ i _ => Vocabulary.coversItem_unrestricted i) roots).steps empty_valid ⟨[], []⟩
    exact ⟨_, t, steps, rfl, rfl, rfl, List.suffix_append _ _⟩
  · have kept := steps.kept start_kept
    exact ⟨kept.exclusive, fun t step => step.told kept⟩

end DeviceTree.Tree
