import DeviceTree.Proofs.Blocks
import DeviceTree.Proofs.Inlining
import DeviceTree.Proofs.Naming

namespace DeviceTree

namespace Store

mutual

def Shows (s : Store) (id : NodeId) : Outline → Prop
  | .node e children => (s.node id).entry = e ∧ s.ShowsAll (s.node id).children children

def ShowsAll (s : Store) (ids : List NodeId) : List Outline → Prop
  | [] => ids = []
  | o :: rest => ∃ c more, ids = c :: more ∧ s.Shows c o ∧ s.ShowsAll more rest

end

mutual

theorem Shaped.outline_of_shows {s : Store} (shaped : s.Shaped) :
    (o : Outline) → (fuel id : Nat) → id < s.nodes.size → s.nodes.size ≤ id + fuel → s.Shows id o →
      s.outline fuel id = o
  | .node e children, 0, id, known, enough, _ => absurd enough (Nat.not_le_of_lt known)
  | .node e children, fuel + 1, id, known, enough, ⟨entry, below⟩ => by
    have each : ∀ c ∈ (s.node id).children, c < s.nodes.size ∧ s.nodes.size ≤ c + fuel := by
      intro c edge
      obtain ⟨larger, bounded, -⟩ := shaped.child id c edge
      exact ⟨bounded, by omega⟩
    rw [outline, entry, shaped.outlines_of_shows children fuel _ each below]

theorem Shaped.outlines_of_shows {s : Store} (shaped : s.Shaped) :
    (os : List Outline) → (fuel : Nat) → (ids : List NodeId) →
      (∀ c ∈ ids, c < s.nodes.size ∧ s.nodes.size ≤ c + fuel) → s.ShowsAll ids os → ids.map (s.outline fuel) = os
  | [], _, _, _, nothing => by rw [nothing]; rfl
  | o :: rest, fuel, _, each, ⟨c, more, equal, here, later⟩ => by
    subst equal
    obtain ⟨known, enough⟩ := each c List.mem_cons_self
    rw [List.map_cons, shaped.outline_of_shows o fuel c known enough here,
      shaped.outlines_of_shows rest fuel more (fun d member => each d (List.mem_cons_of_mem _ member)) later]

end

mutual

-- What a node shows depends only on nodes with numbers from its own upwards.
theorem Shaped.shows_frame {s t : Store} (shaped : s.Shaped) {low : Nat}
    (same : ∀ i : Nat, low ≤ i → i < s.nodes.size → t.node i = s.node i) :
    (o : Outline) → (id : Nat) → low ≤ id → id < s.nodes.size → s.Shows id o → t.Shows id o
  | .node e children, id, above, known, ⟨entry, below⟩ => by
    have each : ∀ c ∈ (s.node id).children, low ≤ c ∧ c < s.nodes.size := by
      intro c edge
      obtain ⟨larger, bounded, -⟩ := shaped.child id c edge
      exact ⟨by omega, bounded⟩
    rw [Shows, same id above known]
    exact ⟨entry, shaped.showsAll_frame same children _ each below⟩

theorem Shaped.showsAll_frame {s t : Store} (shaped : s.Shaped) {low : Nat}
    (same : ∀ i : Nat, low ≤ i → i < s.nodes.size → t.node i = s.node i) :
    (os : List Outline) → (ids : List NodeId) → (∀ c ∈ ids, low ≤ c ∧ c < s.nodes.size) → s.ShowsAll ids os →
      t.ShowsAll ids os
  | [], _, _, nothing => nothing
  | o :: rest, _, each, ⟨c, more, equal, here, later⟩ => by
    subst equal
    obtain ⟨above, known⟩ := each c List.mem_cons_self
    exact ⟨c, more, rfl, shaped.shows_frame same o c above known here,
      shaped.showsAll_frame same rest more (fun d member => each d (List.mem_cons_of_mem _ member)) later⟩

end

theorem showsAll_append {s : Store} {ids more : List NodeId} {os rest : List Outline} (one : s.ShowsAll ids os)
    (two : s.ShowsAll more rest) : s.ShowsAll (ids ++ more) (os ++ rest) := by
  induction os generalizing ids with
  | nil =>
    rw [ShowsAll] at one
    subst one
    exact two
  | cons o os ih =>
    obtain ⟨c, inner, rfl, here, later⟩ := one
    exact ⟨c, inner ++ more, rfl, here, ih later⟩

theorem names_of_showsAll {s : Store} {ids : List NodeId} {os : List Outline} (shown : s.ShowsAll ids os) :
    ids.map (fun c => (s.node c).name) = os.map (·.entry.name) := by
  induction os generalizing ids with
  | nil =>
    rw [ShowsAll] at shown
    subst shown
    rfl
  | cons o os ih =>
    obtain ⟨c, more, rfl, here, later⟩ := shown
    obtain ⟨e, children⟩ := o
    rw [List.map_cons, List.map_cons, ih later]
    exact congrArg (· :: _) (congrArg Entry.name here.1)

end Store

theorem Node.entry_names (n : Node) : n.entry.settings.map Setting.name = n.properties.map Property.name := by
  rw [entry, List.map_map]
  rfl

structure Outline.Orderly (o : Outline) : Prop where
  tidy : o.Tidy
  settled : o.All fun e => (e.settings.map Setting.name).Nodup
  owners : o.labels.Nodup

namespace Merge

structure Adds (m n : Merge) (id : Nat) (labels : List Bytes) (settings : List Setting) (children : List Outline) : Prop where
  shaped : n.store.Shaped
  size : m.store.nodes.size ≤ n.store.nodes.size
  others : ∀ i : Nat, i < m.store.nodes.size → i ≠ id → n.store.node i = m.store.node i
  entry : (n.store.node id).entry = ⟨(m.store.node id).name, (m.store.node id).labels ++ labels,
    (m.store.node id).entry.settings ++ settings⟩
  grown : ∃ ids, (n.store.node id).children = (m.store.node id).children ++ ids ∧ n.store.ShowsAll ids children ∧
    ∀ c ∈ ids, m.store.nodes.size ≤ c ∧ c < n.store.nodes.size
  owners : (n.labels.map LabelOwner.name).Perm (m.labels.map LabelOwner.name ++ (labels ++ Outline.labelsIn children))

-- Where that much can be added without anything being taken away or put in place of another.
structure Room (m : Merge) (id : Nat) (labels : List Bytes) (settings : List Setting) (children : List Outline) : Prop where
  shaped : m.store.Shaped
  known : id < m.store.nodes.size
  properties : ((m.store.node id).entry.settings.map Setting.name ++ settings.map Setting.name).Nodup
  names : (((m.store.node id).children.map fun c => (m.store.node c).name) ++ children.map (·.entry.name)).Nodup
  owners : (m.labels.map LabelOwner.name ++ (labels ++ Outline.labelsIn children)).Nodup
  owned : ∀ l ∈ (m.store.node id).labels, l ∈ m.labels.map LabelOwner.name
  tidy : Outline.TidyIn children
  settled : Outline.AllIn (fun e => (e.settings.map Setting.name).Nodup) children

theorem labelsIn_append (os rest : List Outline) :
    Outline.labelsIn (os ++ rest) = Outline.labelsIn os ++ Outline.labelsIn rest := by
  induction os with
  | nil => rfl
  | cons o os ih => rw [List.cons_append, Outline.labelsIn, Outline.labelsIn, ih, List.append_assoc]

theorem allIn_append (p : Entry → Prop) (os rest : List Outline) :
    Outline.AllIn p (os ++ rest) ↔ Outline.AllIn p os ∧ Outline.AllIn p rest := by
  induction os with
  | nil => simp [Outline.AllIn]
  | cons o os ih => rw [List.cons_append, Outline.AllIn, Outline.AllIn, ih, and_assoc]

theorem perm_regroup {α : Type} (known one two three four : List α) :
    ((known ++ (one ++ two)) ++ (three ++ four)).Perm (known ++ ((one ++ three) ++ (two ++ four))) := by
  simp only [List.append_assoc]
  refine .append_left _ (.append_left _ ?_)
  rw [← List.append_assoc, ← List.append_assoc]
  exact .append_right _ List.perm_append_comm

section

variable {m n k : Merge} {id : Nat} {labels more : List Bytes} {settings next : List Setting} {children rest : List Outline}

theorem Adds.refl (shaped : m.store.Shaped) (id : Nat) : Adds m m id [] [] [] where
  shaped := shaped
  size := Nat.le_refl _
  others _ _ _ := rfl
  entry := by rw [List.append_nil, List.append_nil]; rfl
  grown := ⟨[], (List.append_nil _).symm, rfl, by simp⟩
  owners := by rw [Outline.labelsIn, List.append_nil, List.append_nil]

theorem Adds.trans (known : id < m.store.nodes.size) (first : Adds m n id labels settings children)
    (second : Adds n k id more next rest) : Adds m k id (labels ++ more) (settings ++ next) (children ++ rest) where
  shaped := second.shaped
  size := Nat.le_trans first.size second.size
  others i old other := (second.others i (Nat.lt_of_lt_of_le old first.size) other).trans (first.others i old other)
  entry := by
    have name : (n.store.node id).name = (m.store.node id).name := congrArg Entry.name first.entry
    have labels : (n.store.node id).labels = (m.store.node id).labels ++ labels := congrArg Entry.labels first.entry
    rw [second.entry, first.entry, name, labels, List.append_assoc, List.append_assoc]
  grown := by
    obtain ⟨ids, one, shown, range⟩ := first.grown
    obtain ⟨added, two, shown', range'⟩ := second.grown
    have kept : k.store.ShowsAll ids children := by
      refine first.shaped.showsAll_frame ?_ children ids range shown
      intro i above old
      exact second.others i old (by omega)
    refine ⟨ids ++ added, by rw [two, one, List.append_assoc], Store.showsAll_append kept shown', ?_⟩
    intro c member
    rcases List.mem_append.mp member with old | new
    · exact ⟨(range c old).1, Nat.lt_of_lt_of_le (range c old).2 second.size⟩
    · exact ⟨Nat.le_trans first.size (range' c new).1, (range' c new).2⟩
  owners := by
    rw [labelsIn_append]
    exact second.owners.trans ((first.owners.append_right _).trans (perm_regroup _ _ _ _ _))

theorem Adds.room (added : Adds m n id labels settings children)
    (room : Room m id (labels ++ more) (settings ++ next) (children ++ rest)) : Room n id more next rest where
  shaped := added.shaped
  known := Nat.lt_of_lt_of_le room.known added.size
  properties := by
    have all := room.properties
    rw [List.map_append, ← List.append_assoc] at all
    rwa [added.entry, List.map_append]
  names := by
    obtain ⟨ids, grown, shown, -⟩ := added.grown
    have old : (m.store.node id).children.map (fun c => (n.store.node c).name) =
        (m.store.node id).children.map fun c => (m.store.node c).name := by
      refine List.map_congr_left ?_
      intro c edge
      obtain ⟨larger, bounded, -⟩ := room.shaped.child id c edge
      rw [added.others c bounded (Nat.ne_of_gt larger)]
    have all := room.names
    rw [List.map_append, ← List.append_assoc] at all
    rwa [grown, List.map_append, old, Store.names_of_showsAll shown]
  owners := by
    have all := room.owners
    rw [labelsIn_append] at all
    exact ((added.owners.append_right _).trans (perm_regroup _ _ _ _ _)).nodup_iff.mpr all
  owned := by
    have labels : (n.store.node id).labels = (m.store.node id).labels ++ labels := congrArg Entry.labels added.entry
    intro l member
    rw [added.owners.mem_iff]
    rw [labels] at member
    rcases List.mem_append.mp member with old | new
    · exact List.mem_append_left _ (room.owned l old)
    · exact List.mem_append_right _ (List.mem_append_left _ new)
  tidy := by
    have all := room.tidy
    rw [Outline.tidyIn_iff] at all ⊢
    exact fun o member => all o (List.mem_append_right _ member)
  settled := ((allIn_append _ _ _).mp room.settled).2

theorem Room.edit (room : Room m id more next rest) {f : Node → Node} (store : n.store = m.store.modify id f)
    (frame : ∀ n, (f n).frame = n.frame)
    (entry : (f (m.store.node id)).entry = ⟨(m.store.node id).name, (m.store.node id).labels ++ labels,
      (m.store.node id).entry.settings ++ settings⟩)
    (owners : n.labels.map LabelOwner.name = m.labels.map LabelOwner.name ++ labels) : Adds m n id labels settings [] := by
  have alike := Store.alike_modify m.store id f frame
  rw [← store] at alike
  refine ⟨alike.shaped room.shaped, Nat.le_of_eq alike.size.symm, ?_, ?_, ?_, ?_⟩
  · intro i _ other
    rw [store, Store.node_modify_other _ _ _ _ other]
  · rw [store, Store.node_modify_self _ _ _ room.known, entry]
  · exact ⟨[], by rw [alike.children, List.append_nil], rfl, by simp⟩
  · rw [owners, Outline.labelsIn, List.append_nil]

theorem Room.setProperty {p : Property} (room : Room m id more (p.setting :: next) rest) :
    Adds m (m.setProperty (some id) p) id [] [p.setting] [] := by
  refine room.edit (f := fun n => { n with properties := n.properties.set p }) rfl (fun _ => rfl) ?_
    (List.append_nil _).symm
  have fresh : p.name ∉ (m.store.node id).properties.map Property.name := by
    rw [← Node.entry_names]
    exact fun member => List.disjoint_of_nodup_append room.properties member List.mem_cons_self
  rw [Node.entry, PropertyList.set_fresh fresh, List.map_append, List.append_nil]
  rfl

theorem Room.addLabel {l : Label} (room : Room m id (l.name :: more) next rest) (file : Bytes) :
    Adds m (m.addLabel file id l) id [l.name] [] [] := by
  have fresh : l.name ∉ m.labels.map LabelOwner.name :=
    fun member => List.disjoint_of_nodup_append room.owners member List.mem_cons_self
  have new : ∀ o ∈ m.labels, o.name ≠ l.name := fun o member same => fresh (List.mem_map.mpr ⟨o, member, same⟩)
  have free : m.owner? l.name = none := List.find?_eq_none.mpr fun o member => by simpa using new o member
  have lost : m.loseLabel file id l = m := by rw [loseLabel, free]
  have kept : m.labels.filter (·.name != l.name) = m.labels :=
    List.filter_eq_self.mpr fun o member => by simpa using new o member
  have unlabelled : (m.store.node id).labels.elem l.name = false := by
    simpa using fun member => fresh (room.owned _ member)
  rw [addLabel_eq, lost]
  refine room.edit (f := fun n => if n.labels.elem l.name then n else { n with labels := n.labels ++ [l.name] }) rfl
    (fun n => by split <;> rfl) ?_ ?_
  · rw [unlabelled]
    exact congrArg _ (List.append_nil _).symm
  · rw [gainLabel, kept, List.map_append]
    rfl

theorem Room.addLabels (file : Bytes) (ls : List Label) (room : Room m id (ls.map Label.name ++ more) next rest) :
    Adds m (ls.foldl (fun m l => m.addLabel file id l) m) id (ls.map Label.name) [] [] := by
  induction ls generalizing m with
  | nil => exact .refl room.shaped id
  | cons l ls ih =>
    have first := room.addLabel file
    exact first.trans room.known (ih (first.room room))

theorem Room.openBlock {decl : NodeDecl} (heads : decl.head.labels.map Label.name = labels)
    (room : Room m id (labels ++ more) next rest) (file : Bytes) :
    Adds m (m.openBlock file decl (some id)).2 id labels [] [] := by
  subst heads
  have opened : Adds m (m.addBlock file decl id) id [] [] [] :=
    room.edit rfl (fun _ => rfl) (by simp [Node.entry]) (List.append_nil _).symm
  rw [openBlock_some]
  exact opened.trans room.known ((opened.room room).addLabels file decl.head.labels)

section

variable {e : Entry} {inner : List Outline} (room : Room m id [] [] (.node e inner :: rest))
include room

theorem Room.missing : m.store.childNamed? id e.name = none := by
  refine Option.eq_none_iff_forall_ne_some.mpr ?_
  intro c found
  obtain ⟨edge, same⟩ := (room.shaped.listed id e.name c).mp found
  have apart := List.disjoint_of_nodup_append room.names (List.mem_map_of_mem edge)
  refine apart ?_
  rw [same]
  exact List.mem_cons_self

theorem Room.child :
    Room { m with store := (m.store.child id e.name).2 } m.store.nodes.size (e.labels ++ []) e.settings inner := by
  have fresh := Store.node_child_new room.missing room.known
  obtain ⟨⟨names, tidy⟩, -⟩ := room.tidy
  obtain ⟨⟨settled, inside⟩, -⟩ := room.settled
  refine ⟨room.shaped.grow room.missing room.known, ?_, ?_, ?_, ?_, ?_, tidy, inside⟩
  · rw [Store.size_child room.missing]
    exact Nat.lt_succ_self _
  · rw [fresh]
    simpa [Node.entry] using settled
  · rw [fresh]
    simpa using names
  · have all := room.owners
    rw [Outline.labelsIn, Outline.labels, List.nil_append, ← List.append_assoc] at all
    rw [List.append_nil]
    exact (List.nodup_append.mp all).1
  · rw [fresh]
    simp

theorem Room.hang (added : Adds { m with store := (m.store.child id e.name).2 } n m.store.nodes.size e.labels e.settings inner) :
    Adds m n id [] [] [.node e inner] := by
  have fresh := Store.node_child_new room.missing room.known
  have size := Store.size_child room.missing
  have parent : n.store.node id = Store.addChild m.store.nodes.size e.name (m.store.node id) := by
    rw [added.others id (by rw [size]; exact Nat.lt_succ_of_lt room.known) (Nat.ne_of_lt room.known)]
    exact Store.node_child_parent room.missing room.known
  have larger : m.store.nodes.size < n.store.nodes.size := by
    have grown := added.size
    rw [size] at grown
    exact grown
  refine ⟨added.shaped, Nat.le_of_lt larger, ?_, ?_, ?_, ?_⟩
  · intro i old other
    rw [added.others i (by rw [size]; exact Nat.lt_succ_of_lt old) (Nat.ne_of_lt old)]
    exact Store.node_child_other room.missing other (Nat.ne_of_lt old)
  · rw [parent, List.append_nil, List.append_nil]
    rfl
  · refine ⟨[m.store.nodes.size], by rw [parent, Store.addChild], ⟨_, [], rfl, ?_, rfl⟩, by simpa using larger⟩
    obtain ⟨ids, grown, shown, -⟩ := added.grown
    have entry := added.entry
    simp only [fresh] at entry grown
    exact ⟨entry, by rw [grown]; exact shown⟩
  · have owners := added.owners
    simpa [Outline.labelsIn, Outline.labels] using owners

end

theorem statements_add {stmts : List Statement} (spells : Spells settings children stmts) (file : Bytes) (fragment : FragmentId)
    (room : Room m id [] settings children) : Adds m (statements file (some id) fragment stmts m) id [] settings children := by
  induction spells generalizing m id fragment with
  | done =>
    rw [statements_nil]
    exact .refl room.shaped id
  | property shown spelled ih =>
    subst shown
    rw [statements_property]
    have first := room.setProperty (p := ⟨_, fragment⟩)
    exact first.trans room.known (ih fragment (first.room room))
  | @node e inner rest head body stmts heading labels inside spelled ihInside ihRest =>
    have name : head.heading.nodeName = e.name := by rw [heading]; rfl
    have child : m.childOf (some id) e.name =
        (some m.store.nodes.size, { m with store := (m.store.child id e.name).2 }) := by
      rw [← Store.child_new room.missing]
      rfl
    have heads : (NodeDecl.mk head body).head.labels.map Label.name = e.labels := labels
    have opened := room.child.openBlock heads file
    have filled := ihInside m.fragments.size (opened.room room.child)
    have whole := opened.trans room.child.known filled
    rw [List.append_nil] at whole
    have first := room.hang whole
    rw [statements_node, name, child]
    exact first.trans room.known (ihRest fragment (first.room room))

end

theorem spelled_outline {f : File} {d : Directive} {decl : NodeDecl} {e : Entry} {children : List Outline}
    (items : f.document.items = [.directive d, .node decl]) (heading : decl.head.heading = .name (utf8 "/"))
    (labels : decl.head.labels.map Label.name = e.labels) (spells : Spells e.settings children decl.body)
    (root : e.name = utf8 "/") (orderly : (Outline.node e children).Orderly) (name : Bytes) (bindings : Option Catalog) :
    (Tree.merge name [f.path] [f] bindings).outline = .node e children := by
  obtain ⟨tidy, settled, owners⟩ := orderly
  have plain : ∀ i, .include i ∉ f.document.items := by simp [items]
  have alone : [f.path].foldl (addRoot [f]) .empty = (Merge.empty.enter f.path).topNode f.path decl := by
    rw [List.foldl_cons, List.foldl_nil, addRoot_alone plain, items]
    rfl
  have start : (Merge.empty.enter f.path).store.node Store.rootId = Node.root ∧ (Merge.empty.enter f.path).labels = [] :=
    ⟨rfl, rfl⟩
  have room : Room (Merge.empty.enter f.path) Store.rootId (e.labels ++ []) e.settings children := by
    have empty := empty_valid.shaped
    refine ⟨empty, empty.nonempty, ?_, ?_, ?_, ?_, tidy.2, settled.2⟩
    · rw [start.1]
      exact settled.1
    · rw [start.1]
      exact tidy.1
    · rw [start.2, List.append_nil]
      exact owners
    · rw [start.1]
      simp [Node.root]
  have opened := room.openBlock labels f.path
  have added := opened.trans room.known (statements_add spells f.path 0 (opened.room room))
  have top : (Merge.empty.enter f.path).topNode f.path decl = statements f.path (some Store.rootId) 0 decl.body
      ((Merge.empty.enter f.path).openBlock f.path decl (some Store.rootId)).2 := by
    rw [topNode, heading]
    simp only [if_true]
    rfl
  rw [← top, ← alone, List.append_nil] at added
  have known := Nat.lt_of_lt_of_le room.known added.size
  refine added.shaped.outline_of_shows _ _ Store.rootId known (Nat.le_add_left _ _) ⟨?_, ?_⟩
  · have whole : Entry.mk (utf8 "/") e.labels e.settings = e := by rw [← root]
    rw [added.entry, start.1]
    exact whole
  · obtain ⟨ids, grown, shown, -⟩ := added.grown
    rw [grown, start.1]
    exact shown

end Merge

namespace Outline

theorem name_reread (o : Outline) : o.reread.entry.name = o.entry.name := by
  cases o
  rfl

theorem names_reread (os : List Outline) : (rereadAll os).map (·.entry.name) = os.map (·.entry.name) := by
  induction os with
  | nil => rfl
  | cons o rest ih => rw [rereadAll, List.map_cons, List.map_cons, name_reread, ih]

mutual

theorem listing_reread : (o : Outline) → (path : Bytes) →
    o.reread.listing path = (o.listing path).map fun x => (x.1, x.2.reread)
  | .node e children, path => by
    rw [reread, listing, listing, listings_reread children path]
    rfl

theorem listings_reread : (os : List Outline) → (path : Bytes) →
    listings path (rereadAll os) = (listings path os).map fun x => (x.1, x.2.reread)
  | [], _ => rfl
  | o :: rest, path => by
    rw [rereadAll, listings, listings, List.map_append, name_reread, listing_reread o, listings_reread rest]

end

theorem labels_reread (o : Outline) : o.reread.labels = o.labels := by
  rw [labels_listing [], labels_listing [], listing_reread, List.flatMap_map]
  rfl

theorem all_reread (p : Entry → Prop) (o : Outline) : o.reread.All p ↔ o.All fun e => p e.reread := by
  rw [all_iff p [], all_iff _ [], listing_reread, List.forall_mem_map]

mutual

theorem tidy_reread : (o : Outline) → o.Tidy → o.reread.Tidy
  | .node e children, ⟨names, tidy⟩ => by
    refine ⟨?_, tidyIn_reread children tidy⟩
    rw [names_reread]
    exact names

theorem tidyIn_reread : (os : List Outline) → TidyIn os → TidyIn (rereadAll os)
  | [], _ => trivial
  | o :: rest, ⟨here, later⟩ => ⟨tidy_reread o here, tidyIn_reread rest later⟩

end

theorem Orderly.reread {o : Outline} (orderly : o.Orderly) : o.reread.Orderly := by
  refine ⟨tidy_reread o orderly.tidy, ?_, by rw [labels_reread]; exact orderly.owners⟩
  rw [all_reread]
  have names : ∀ e : Entry, e.reread.settings.map Setting.name = e.settings.map Setting.name := by
    intro e
    rw [Entry.reread, List.map_map]
    rfl
  simp only [names]
  exact orderly.settled

end Outline

def ValueView.Legible : ValueView → Prop
  | .string text => Printer.Legible text
  | _ => True

def Entry.Legible (e : Entry) : Prop := ∀ p ∈ e.settings, ∀ v ∈ p.values, v.Legible

instance : (v : ValueView) → Decidable v.Legible
  | .string text => inferInstanceAs (Decidable (Printer.escaped text = text ∨ Text.isWellFormed text = true))
  | .bytes _ => isTrue trivial
  | .array _ _ => isTrue trivial
  | .ref _ => isTrue trivial

instance (e : Entry) : Decidable e.Legible := inferInstanceAs (Decidable (∀ p ∈ e.settings, ∀ v ∈ p.values, v.Legible))

theorem map_eq_self {α : Type} (f : α → α) (xs : List α) : xs.map f = xs ↔ ∀ x ∈ xs, f x = x := by
  have same := List.map_inj_left (l := xs) (f := f) (g := id)
  simpa using same

theorem ValueView.reread_eq_iff (v : ValueView) : v.reread = v ↔ v.Legible := by
  cases v with
  | string text => rw [ValueView.reread, ValueView.string.injEq, Printer.reread_eq_iff, ValueView.Legible]
  | _ => exact iff_of_true rfl trivial

theorem Setting.reread_eq_iff (p : Setting) : p.reread = p ↔ ∀ v ∈ p.values, v.Legible := by
  obtain ⟨name, values⟩ := p
  rw [Setting.reread, Setting.mk.injEq, map_eq_self]
  simp only [true_and, ValueView.reread_eq_iff]

theorem Entry.reread_eq_iff (e : Entry) : e.reread = e ↔ e.Legible := by
  obtain ⟨name, labels, settings⟩ := e
  rw [Entry.reread, Entry.mk.injEq, map_eq_self]
  simp only [true_and, Setting.reread_eq_iff, Entry.Legible]

namespace Outline

mutual

theorem reread_legible : (o : Outline) → o.All Entry.Legible → o.reread = o
  | .node e children, ⟨here, below⟩ => by
    rw [reread, e.reread_eq_iff.mpr here, rereadAll_legible children below]

theorem rereadAll_legible : (os : List Outline) → AllIn Entry.Legible os → rereadAll os = os
  | [], _ => rfl
  | o :: rest, ⟨here, later⟩ => by
    rw [rereadAll, reread_legible o here, rereadAll_legible rest later]

end

end Outline

theorem Document.balanced_of_clean {d : Document} (clean : d.firstError? = none) : d.Balanced := by
  intro e member same
  have ignored := List.find?_eq_none.mp clean e member
  rw [same] at ignored
  exact ignored rfl

theorem Store.Shaped.allIn_outline {s : Store} (shaped : s.Shaped) {p : Entry → Prop}
    (each : ∀ i : Nat, 0 < i → i < s.nodes.size → p (s.node i).entry) (fuel : Nat) (ids : List NodeId)
    (below : ∀ c ∈ ids, 0 < c ∧ c < s.nodes.size) : Outline.AllIn p (ids.map (s.outline fuel)) := by
  induction fuel generalizing ids with
  | zero =>
    induction ids with
    | nil => trivial
    | cons c ids later =>
      obtain ⟨positive, known⟩ := below c List.mem_cons_self
      exact ⟨⟨each c positive known, trivial⟩, later fun d member => below d (List.mem_cons_of_mem _ member)⟩
  | succ fuel ih =>
    induction ids with
    | nil => trivial
    | cons c ids later =>
      obtain ⟨positive, known⟩ := below c List.mem_cons_self
      refine ⟨⟨each c positive known, ih _ ?_⟩, later fun d member => below d (List.mem_cons_of_mem _ member)⟩
      intro d edge
      obtain ⟨larger, bounded, -⟩ := shaped.child c d edge
      exact ⟨Nat.lt_trans positive larger, bounded⟩

theorem File.document_ofText (source : Source) (dirs : List Bytes) (path text : Bytes) :
    (File.ofText source dirs path text).document = Document.parse text := rfl

namespace Tree
open Merge

theorem entry_spelled {m : Merge} (lawful : Lawful .ofSource m) (id : Nat) : (m.store.node id).entry.Spelled := by
  obtain ⟨labels, -, properties, -⟩ := lawful.worded id
  refine ⟨labels, ?_⟩
  intro p member
  obtain ⟨q, present, rfl⟩ := List.mem_map.mp member
  exact properties q present

theorem outline_root {t : Tree} (shaped : t.store.Shaped) : ∃ fuel,
    t.outline = .node (t.node Store.rootId).entry ((t.node Store.rootId).children.map (t.store.outline fuel)) := by
  obtain ⟨fuel, size⟩ : ∃ n, t.store.nodes.size = n + 1 := ⟨t.store.nodes.size - 1, by have := shaped.nonempty; omega⟩
  exact ⟨fuel, by rw [outline, size]; rfl⟩

theorem outline_orderly {t : Tree} {m : Merge} (lawful : Lawful .ofSource m) (store : t.store = m.store) :
    t.outline.Orderly := by
  have shaped := lawful.valid.shaped
  rw [← store] at shaped
  refine ⟨shaped.tidy _ _, ?_, ?_⟩
  · rw [t.all_outline shaped (store ▸ lawful.pathed)]
    intro id _
    rw [node, store, Node.entry_names]
    exact (lawful.worded id).settled
  · rw [outline, store]
    exact lawful.labels_nodup

def reread (t : Tree) (source : Source) (dirs : List Bytes) (path : Bytes) : Tree :=
  merge t.name [path] [.ofText source dirs path (t.print .evaluated)] t.bindings

-- The text is read without an error, and its nodes are those of the tree.
def Returns (t : Tree) (source : Source) (dirs : List Bytes) (path : Bytes) : Prop :=
  (Document.parse (t.print .evaluated)).errors = [] ∧ (t.reread source dirs path).listing = t.listing

section

variable {t : Tree} {m : Merge} (lawful : Lawful .ofSource m) (store : t.store = m.store)
include lawful store

theorem parse_print : (Document.parse (t.print .evaluated)).errors = [] ∧ t.outline.All Entry.Plain ∧
      (∀ source dirs path, (t.reread source dirs path).outline = t.outline.reread) ∨
    (Document.parse (t.print .evaluated)).errors ≠ [] ∧ ¬ t.outline.All Entry.Plain := by
  have shaped := lawful.valid.shaped
  have orderly := outline_orderly lawful store
  rw [← store] at shaped
  obtain ⟨fuel, whole⟩ := outline_root shaped
  have root : (t.node Store.rootId).entry.name = utf8 "/" := by
    rw [node, store]
    exact congrArg Prod.fst lawful.placed.root
  have spelled : (t.node Store.rootId).entry.Spelled := by
    rw [node, store]
    exact entry_spelled lawful _
  have named : Outline.AllIn Entry.Named ((t.node Store.rootId).children.map (t.store.outline fuel)) := by
    refine shaped.allIn_outline ?_ fuel _ ?_
    · intro i positive known
      rw [store] at known ⊢
      exact ⟨lawful.placed.named i positive known, entry_spelled lawful i⟩
    · intro c edge
      obtain ⟨larger, bounded, -⟩ := shaped.child _ c edge
      exact ⟨Nat.zero_lt_of_lt larger, bounded⟩
  have text : t.print .evaluated = t.outline.document := t.print_outline shaped
  rw [text, whole]
  rcases Document.parse_document root spelled named with ⟨clean, plain, d, decl, items, heading, labels, spells⟩ | flawed
  · refine .inl ⟨clean, plain, ?_⟩
    intro source dirs path
    rw [whole] at orderly
    rw [reread, text, whole]
    rw [← File.document_ofText source dirs path] at items
    generalize file : File.ofText source dirs path _ = f at items
    have place : f.path = path := by
      rw [← file]
      rfl
    subst place
    exact spelled_outline (e := (t.node Store.rootId).entry.reread) items heading labels spells root orderly.reread _ _
  · exact .inr flawed

end

theorem listing_merged (name : Bytes) (roots : List Bytes) (files : List File) (bindings : Option Catalog) :
    (merge name roots files bindings).listing = (merge name roots files bindings).outline.listing (utf8 "/") := by
  have lawful : Lawful .unrestricted (roots.foldl (addRoot files) .empty) :=
    (roots_moves (fun _ _ i _ => Vocabulary.coversItem_unrestricted i) roots).lawful (empty_lawful _)
  have root : ((merge name roots files bindings).node Store.rootId).path = utf8 "/" :=
    congrArg (fun place => place.2.1) lawful.placed.root
  rw [listing_outline _ lawful.valid.shaped lawful.pathed, root]

theorem print_merged (name : Bytes) (roots : List Bytes) (files : List File) (bindings : Option Catalog) :
    (merge name roots files bindings).print .evaluated = (merge name roots files bindings).outline.document :=
  print_outline _ (roots_valid files roots).shaped

-- A merged tree comes back from its text if and only if nothing that it shows is taken for something else.
theorem merged_returns_iff (name : Bytes) (roots : List Bytes) {files : List File} (bindings : Option Catalog)
    (parsed : ∀ f ∈ files, f.document = Document.parse f.text) (clean : ∀ f ∈ files, f.document.firstError? = none)
    (source : Source) (dirs : List Bytes) (path : Bytes) :
    ((merge name roots files bindings).Returns source dirs path ↔ ∀ id ∈ (merge name roots files bindings).nodes,
      ((merge name roots files bindings).node id).entry.Plain ∧ ((merge name roots files bindings).node id).entry.Legible) ∧
    ((merge name roots files bindings).Returns source dirs path →
      ((merge name roots files bindings).reread source dirs path).print .evaluated =
        (merge name roots files bindings).print .evaluated) := by
  have lawful : Lawful .ofSource (roots.foldl (addRoot files) .empty) := by
    refine (roots_moves ?_ roots).lawful (empty_lawful _)
    intro f member
    rw [parsed f member]
    refine Document.parse_covers f.text ?_
    rw [← parsed f member]
    exact Document.balanced_of_clean (clean f member)
  have read := parse_print (t := merge name roots files bindings) lawful rfl
  have shown := all_outline (merge name roots files bindings) lawful.valid.shaped lawful.pathed
  have listed := listing_merged name roots files bindings
  have written := print_merged name roots files bindings
  generalize merge name roots files bindings = t at read shown listed written
  rw [forall₂_and, ← shown, ← shown]
  rcases read with ⟨errors, plain, again⟩ | ⟨errors, flawed⟩
  · have returned : (t.reread source dirs path).listing = t.listing.map fun x => (x.1, x.2.reread) := by
      rw [reread, listing_merged, ← reread, again, Outline.listing_reread, ← listed]
    have legible : (∀ x ∈ t.listing, (x.1, x.2.reread) = x) ↔ t.outline.All Entry.Legible := by
      rw [listed, Outline.all_iff _ (utf8 "/")]
      refine forall₂_congr fun x _ => ?_
      rw [← x.2.reread_eq_iff, Prod.ext_iff]
      exact and_iff_right rfl
    refine ⟨?_, ?_⟩
    · rw [Returns, returned, map_eq_self, legible]
      exact ⟨fun both => ⟨plain, both.2⟩, fun both => ⟨errors, both.2⟩⟩
    · intro returns
      have all := legible.mp ((map_eq_self _ _).mp (returned.symm.trans returns.2))
      rw [reread, print_merged, ← reread, again, Outline.reread_legible _ all, written]
  · exact ⟨iff_of_false (fun returns => errors returns.1) fun all => flawed all.1, fun returns => absurd returns.1 errors⟩

def ofText (text : Bytes) : Tree := merge [] [utf8 "/a.dts"] [.ofText (.ofTable []) [] (utf8 "/a.dts") text] none

def boardText : Bytes := utf8 "l: / \x7b p = \"x\", <1 (A)>, &l; #q; \x7d;"

theorem board_listing : (ofText boardText).listing = [(utf8 "/", ⟨utf8 "/", [utf8 "l"], [⟨utf8 "p", [.string (utf8 "x"),
    .array .w32 [.word 1, .raw (utf8 "(A)")], .ref (.label (utf8 "l"))]⟩, ⟨utf8 "#q", []⟩]⟩)] := by
  decide +kernel

theorem board_returns : (Document.parse boardText).firstError? = none ∧
    (ofText boardText).Returns (.ofTable []) [] (utf8 "/b.dts") ∧
    ((ofText boardText).reread (.ofTable []) [] (utf8 "/b.dts")).print .evaluated = (ofText boardText).print .evaluated := by
  have shown : ∀ x ∈ (ofText boardText).listing, x.2.Plain ∧ x.2.Legible := by
    rw [board_listing]
    decide +kernel
  have clean : (Document.parse boardText).firstError? = none := by decide +kernel
  have returned := merged_returns_iff [] [utf8 "/a.dts"] none
    (List.forall_mem_singleton.mpr (File.document_ofText (.ofTable []) [] (utf8 "/a.dts") boardText))
    (List.forall_mem_singleton.mpr clean) (.ofTable []) [] (utf8 "/b.dts")
  have returns := returned.1.mpr fun id member => shown _ (List.mem_map_of_mem member)
  exact ⟨clean, returns, returned.2 returns⟩

-- Two references in a row: the comma between them is read as part of the first label.
def pairText : Bytes := utf8 "/ \x7b a: a \x7b \x7d; b: b \x7b \x7d; p = &a , &b; \x7d;"

theorem pair_print : (ofText pairText).print .evaluated =
    utf8 "/dts-v1/;\n\n/ \x7b\n\tp = &a, &b;\n\n\ta: a \x7b\n\t\x7d;\n\n\tb: b \x7b\n\t\x7d;\n\x7d;\n" := by
  decide +kernel

theorem pair_not_returned : (Document.parse pairText).errors = [] ∧
    (Document.parse ((ofText pairText).print .evaluated)).firstError? ≠ none ∧
    ¬ (ofText pairText).Returns (.ofTable []) [] (utf8 "/b.dts") := by
  have clean : (Document.parse pairText).errors = [] := by decide +kernel
  have error : (Document.parse ((ofText pairText).print .evaluated)).firstError? ≠ none := by
    rw [pair_print]
    decide +kernel
  refine ⟨clean, error, ?_⟩
  intro returns
  rw [Document.firstError?, returns.1] at error
  exact error rfl

end Tree
end DeviceTree
