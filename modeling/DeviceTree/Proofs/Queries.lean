import DeviceTree.Proofs.Spans
import DeviceTree.Proofs.Traversal
import DeviceTree.Tree.Query

namespace DeviceTree

theorem Range.contains_iff {r : Range} {p : Position} : r.contains p = true ↔ r.start ≤ p ∧ p < r.stop := by
  have early : p.before r.start = false ↔ r.start ≤ p := by
    rw [Bool.eq_false_iff, Ne, Position.before_iff, not_lt]
  rw [contains, Bool.and_eq_true, Bool.not_eq_true', early, Position.before_iff]

theorem Range.Within.contains {inner outer : Range} {p : Position} (within : inner.Within outer)
    (holds : inner.contains p = true) : outer.contains p = true := by
  obtain ⟨low, high⟩ := Range.contains_iff.mp holds
  exact Range.contains_iff.mpr ⟨within.1.trans low, high.trans_le within.2.2⟩

theorem Range.Within.refl {inner outer : Range} (within : inner.Within outer) : inner.Within inner :=
  ⟨le_rfl, within.2.1, le_rfl⟩

theorem Range.Within.trans {inner mid outer : Range} (one : inner.Within mid) (two : mid.Within outer) : inner.Within outer :=
  ⟨two.1.trans one.1, one.2.1, one.2.2.trans two.2.2⟩

def Range.Apart (a b : Range) : Prop := ∀ p, a.contains p = true → b.contains p = false

theorem Range.apart_of_le {a b : Range} (order : a.stop ≤ b.start) : a.Apart b := by
  intro p one
  apply Bool.eq_false_of_not_eq_true
  intro two
  have high := (Range.contains_iff.mp one).2
  have low := (Range.contains_iff.mp two).1
  exact absurd (high.trans_le (order.trans low)) (lt_irrefl p)

theorem Range.Apart.symm {a b : Range} (apart : a.Apart b) : b.Apart a := by
  intro p two
  apply Bool.eq_false_of_not_eq_true
  intro one
  rw [apart p one] at two
  cases two

theorem Range.Apart.within {a b inner outer : Range} (apart : a.Apart b) (one : inner.Within a) (two : outer.Within b) :
    inner.Apart outer := by
  intro p holds
  apply Bool.eq_false_of_not_eq_true
  intro other
  have none := apart p (one.contains holds)
  rw [two.contains other] at none
  cases none

theorem filter_of_apart {α : Type} (range : α → Range) {xs : List α} (apart : xs.Pairwise fun x y => (range x).Apart (range y))
    {x : α} {p : Position} (member : x ∈ xs) (holds : (range x).contains p = true) :
    xs.filter (fun y => (range y).contains p) = [x] := by
  induction xs with
  | nil => cases member
  | cons y rest ih =>
    obtain ⟨first, others⟩ := List.pairwise_cons.mp apart
    rcases List.mem_cons.mp member with same | later
    · subst same
      have none : rest.filter (fun y => (range y).contains p) = [] := by
        rw [List.filter_eq_nil_iff]
        intro z present
        rw [first z present p holds]
        exact Bool.false_ne_true
      rw [List.filter_cons, if_pos holds, none]
    · have off : ¬ (range y).contains p = true := by
        rw [(first x later).symm p holds]
        exact Bool.false_ne_true
      rw [List.filter_cons, if_neg off, ih others later]

section Nesting

variable {source : Bytes} {stmts : List Statement} {a b : NodeDecl} {p : Position}

theorem NodeDecl.Sound.proper (sound : a.Sound source) : a.head.range.Within a.head.range :=
  ⟨le_rfl, sound.statements.le, le_rfl⟩

theorem within_statement (sound : ∀ n ∈ nodesIn stmts, n.Sound source) (member : a ∈ nodesIn stmts) :
    ∃ head body, .node head body ∈ stmts ∧ (a = ⟨head, body⟩ ∨ a ∈ nodesIn body) ∧ a.head.range.Within head.range := by
  fun_induction nodesIn stmts with
  | case1 => cases member
  | case2 head body rest ihBody ihRest =>
    obtain ⟨own, below⟩ := List.forall_mem_cons.mp sound
    obtain ⟨inner, later⟩ := List.forall_mem_append.mp below
    rcases List.mem_cons.mp member with same | below
    · exact ⟨head, body, List.mem_cons_self, .inl same, same ▸ own.proper⟩
    · rcases List.mem_append.mp below with inside | other
      · obtain ⟨head', body', present, -, within⟩ := ihBody inner inside
        have outer := own.statements.within (List.mem_map_of_mem present)
        exact ⟨head, body, List.mem_cons_self, .inr inside, within.trans outer⟩
      · obtain ⟨head', body', present, here, within⟩ := ihRest later other
        exact ⟨head', body', List.mem_cons_of_mem _ present, here, within⟩
  | case3 decl rest ih =>
    obtain ⟨head, body, present, here, within⟩ := ih sound member
    exact ⟨head, body, List.mem_cons_of_mem _ present, here, within⟩
  | case4 d rest ih =>
    obtain ⟨head, body, present, here, within⟩ := ih sound member
    exact ⟨head, body, List.mem_cons_of_mem _ present, here, within⟩

theorem start_lt_of_below (sound : a.Sound source) (inner : ∀ n ∈ nodesIn a.body, n.Sound source) (below : b ∈ nodesIn a.body) :
    a.head.range.start < b.head.range.start := by
  obtain ⟨head, body, present, -, within⟩ := within_statement inner below
  exact (sound.deeper _ present).trans_le within.1

theorem inner_sound (sound : ∀ n ∈ nodesIn stmts, n.Sound source) (member : a ∈ nodesIn stmts) :
    ∀ n ∈ nodesIn a.body, n.Sound source ∧ n ∈ nodesIn stmts := by
  fun_induction nodesIn stmts with
  | case1 => cases member
  | case2 head body rest ihBody ihRest =>
    have widen : ∀ n, n ∈ nodesIn body ∨ n ∈ nodesIn rest → n ∈ (⟨head, body⟩ : NodeDecl) :: (nodesIn body ++ nodesIn rest) :=
      fun n either => List.mem_cons_of_mem _ (List.mem_append.mpr either)
    intro n below
    rcases List.mem_cons.mp member with same | deeper
    · subst same
      exact ⟨sound n (widen n (.inl below)), widen n (.inl below)⟩
    · rcases List.mem_append.mp deeper with inside | other
      · obtain ⟨good, present⟩ := ihBody (fun m here => sound m (widen m (.inl here))) inside n below
        exact ⟨good, widen n (.inl present)⟩
      · obtain ⟨good, present⟩ := ihRest (fun m here => sound m (widen m (.inr here))) other n below
        exact ⟨good, widen n (.inr present)⟩
  | case3 decl rest ih => exact ih sound member
  | case4 d rest ih => exact ih sound member

abbrev Follow (stmts : List Statement) : Prop := stmts.Pairwise fun s t => s.range.stop ≤ t.range.start

theorem NodeDecl.Sound.follow (sound : a.Sound source) : Follow a.body := List.pairwise_map.mp sound.statements.pairwise

theorem apart_behind (stmt : Statement) {rest : List Statement} (follow : Follow (stmt :: rest))
    (sound : ∀ n ∈ nodesIn rest, n.Sound source) {inner : Range} (within : inner.Within stmt.range) (member : b ∈ nodesIn rest) :
    inner.Apart b.head.range := by
  obtain ⟨head, body, present, -, behind⟩ := within_statement sound member
  have order := (List.pairwise_cons.mp follow).1 _ present
  exact (Range.apart_of_le order).within within behind

-- Two nodes that hold one position lie in each other.
theorem nested_of_holding (follow : Follow stmts) (sound : ∀ n ∈ nodesIn stmts, n.Sound source)
    (one : a ∈ nodesIn stmts) (two : b ∈ nodesIn stmts) (holdsOne : a.head.range.contains p = true)
    (holdsTwo : b.head.range.contains p = true) : a = b ∨ a ∈ nodesIn b.body ∨ b ∈ nodesIn a.body := by
  fun_induction nodesIn stmts with
  | case1 => cases one
  | case2 head body rest ihBody ihRest =>
    obtain ⟨own, below⟩ := List.forall_mem_cons.mp sound
    obtain ⟨inner, later⟩ := List.forall_mem_append.mp below
    -- The first statement with all below it, and what stands behind it.
    have split : ∀ {n : NodeDecl}, n ∈ (⟨head, body⟩ : NodeDecl) :: (nodesIn body ++ nodesIn rest) →
        ((n = ⟨head, body⟩ ∨ n ∈ nodesIn body) ∧ n.head.range.Within head.range) ∨ n ∈ nodesIn rest := by
      intro n member
      rcases List.mem_cons.mp member with same | below
      · exact .inl ⟨.inl same, same ▸ own.proper⟩
      · rcases List.mem_append.mp below with inside | other
        · obtain ⟨head', body', present, -, within⟩ := within_statement inner inside
          exact .inl ⟨.inr inside, within.trans (own.statements.within (List.mem_map_of_mem present))⟩
        · exact .inr other
    have clash : ∀ {m n : NodeDecl}, m.head.range.Within head.range → n ∈ nodesIn rest →
        m.head.range.contains p = true → n.head.range.contains p = true → False := by
      intro m n within member first second
      have none := apart_behind (.node head body) follow later within member p first
      rw [none] at second
      cases second
    rcases split one with ⟨hereOne, withinOne⟩ | laterOne
    · rcases split two with ⟨hereTwo, withinTwo⟩ | laterTwo
      · rcases hereOne with sameOne | insideOne
        · rcases hereTwo with sameTwo | insideTwo
          · exact .inl (sameOne.trans sameTwo.symm)
          · exact .inr (.inr (sameOne ▸ insideTwo))
        · rcases hereTwo with sameTwo | insideTwo
          · exact .inr (.inl (sameTwo ▸ insideOne))
          · exact ihBody own.follow inner insideOne insideTwo
      · exact (clash withinOne laterTwo holdsOne holdsTwo).elim
    · rcases split two with ⟨hereTwo, withinTwo⟩ | laterTwo
      · exact (clash withinTwo laterOne holdsTwo holdsOne).elim
      · exact ihRest (List.pairwise_cons.mp follow).2 later laterOne laterTwo
  | case3 decl rest ih => exact ih (List.pairwise_cons.mp follow).2 sound one two
  | case4 d rest ih => exact ih (List.pairwise_cons.mp follow).2 sound one two

theorem NodeDecl.mem_properties {q : PropertyDecl} : q ∈ a.properties ↔ .property q ∈ a.body := by
  rw [NodeDecl.properties, List.mem_filterMap]
  constructor
  · rintro ⟨stmt, present, equal⟩
    cases stmt with
    | property decl =>
      cases equal
      exact present
    | node head body => cases equal
    | delete d => cases equal
  · exact fun present => ⟨.property q, present, rfl⟩

theorem property_within (sound : a.Sound source) {q : PropertyDecl} (member : q ∈ a.properties) :
    q.range.Within a.head.range :=
  sound.statements.within (List.mem_map_of_mem (f := Statement.range) (NodeDecl.mem_properties.mp member))

theorem property_apart (sound : a.Sound source) (inner : ∀ n ∈ nodesIn a.body, n.Sound source) {q : PropertyDecl}
    (member : q ∈ a.properties) (below : b ∈ nodesIn a.body) : q.range.Apart b.head.range := by
  obtain ⟨head, body, present, -, within⟩ := within_statement inner below
  have own := NodeDecl.mem_properties.mp member
  have apart : a.body.Pairwise fun s t => s.range.Apart t.range := sound.follow.imp Range.apart_of_le
  have both : Std.Symm fun s t : Statement => s.range.Apart t.range := ⟨fun _ _ => Range.Apart.symm⟩
  have pieces := apart.forall own present nofun
  exact pieces.within (property_within sound member).refl within

theorem properties_apart (follow : Follow stmts) (sound : ∀ n ∈ nodesIn stmts, n.Sound source) :
    ((nodesIn stmts).flatMap NodeDecl.properties).Pairwise fun q r => q.range.Apart r.range := by
  fun_induction nodesIn stmts with
  | case1 => exact .nil
  | case2 head body rest ihBody ihRest =>
    obtain ⟨own, below⟩ := List.forall_mem_cons.mp sound
    obtain ⟨inner, later⟩ := List.forall_mem_append.mp below
    have within : ∀ n ∈ nodesIn body, n.head.range.Within head.range := by
      intro n present
      obtain ⟨head', body', member, -, within⟩ := within_statement inner present
      exact within.trans (own.statements.within (List.mem_map_of_mem member))
    have behind : ∀ {inner : Range}, inner.Within head.range → ∀ r ∈ (nodesIn rest).flatMap NodeDecl.properties,
        inner.Apart r.range := by
      intro inner within r member
      obtain ⟨m, node, property⟩ := List.mem_flatMap.mp member
      have apart := apart_behind (.node head body) follow later within node
      exact apart.within within.refl (property_within (later m node) property)
    have mine : (NodeDecl.properties ⟨head, body⟩).Pairwise fun q r => q.range.Apart r.range := by
      refine own.follow.filterMap _ fun s t order q first r second => ?_
      cases s <;> cases first
      cases t <;> cases second
      exact Range.apart_of_le order
    rw [List.flatMap_cons, List.flatMap_append]
    refine List.pairwise_append.mpr ⟨mine, ?_, ?_⟩
    · refine List.pairwise_append.mpr ⟨ihBody own.follow inner, ihRest (List.pairwise_cons.mp follow).2 later, ?_⟩
      intro q first r second
      obtain ⟨n, node, property⟩ := List.mem_flatMap.mp first
      exact behind ((property_within (inner n node) property).trans (within n node)) r second
    · intro q first r second
      rcases List.mem_append.mp second with below | other
      · obtain ⟨n, node, property⟩ := List.mem_flatMap.mp below
        have apart := property_apart own inner first node
        exact apart.within (property_within own first).refl (property_within (inner n node) property)
      · exact behind (property_within own first) r other
  | case3 decl rest ih => exact ih (List.pairwise_cons.mp follow).2 sound
  | case4 d rest ih => exact ih (List.pairwise_cons.mp follow).2 sound

end Nesting

def Item.blocks : Item → List NodeDecl
  | .node n => n :: nodesIn n.body
  | _ => []

namespace Document

theorem mem_nodes {d : Document} {n : NodeDecl} : n ∈ d.nodes ↔ ∃ item ∈ d.items, n ∈ item.blocks := List.mem_flatMap

def tops (d : Document) : List Statement :=
  d.items.filterMap fun
    | .node n => some (.node n.head n.body)
    | _ => none

theorem nodes_tops (d : Document) : d.nodes = nodesIn d.tops := by
  unfold nodes tops
  induction d.items with
  | nil => simp [nodesIn]
  | cons item rest ih =>
    rw [List.flatMap_cons, ih]
    cases item with
    | node n => simp [nodesIn]
    | _ => simp

-- The declaration that holds a position and that all others that hold it have inside.
structure Innermost (d : Document) (p : Position) (n : NodeDecl) : Prop where
  declared : n ∈ d.nodes
  holds : n.head.range.contains p = true
  inside : ∀ m ∈ d.nodes, m.head.range.contains p = true → n = m ∨ n ∈ nodesIn m.body

section Parsed

variable (source : Bytes)

theorem tops_sound : ∀ n ∈ nodesIn (parse source).tops, n.Sound source := by
  rw [← nodes_tops]
  exact nodes_sound source

theorem tops_follow : Follow (parse source).tops := by
  obtain ⟨⟨start, stop, spans⟩, -⟩ := parse_sound source
  refine (List.pairwise_map.mp spans.pairwise).filterMap _ fun i j order s first t second => ?_
  cases i <;> cases first
  cases j <;> cases second
  exact order

variable {source}

theorem innermost_of_latest {n : NodeDecl} {p : Position} (declared : n ∈ (parse source).nodes)
    (holds : n.head.range.contains p = true)
    (latest : ∀ m ∈ (parse source).nodes, m.head.range.contains p = true → m.head.range.start ≤ n.head.range.start) :
    (parse source).Innermost p n := by
  refine ⟨declared, holds, fun m other here => ?_⟩
  have sound := tops_sound source
  have bound := latest m other here
  rw [nodes_tops] at declared other
  rcases nested_of_holding (tops_follow source) sound declared other holds here with same | below | above
  · exact .inl same
  · exact .inr below
  · have inner := fun k member => (inner_sound sound declared k member).1
    exact absurd bound (not_le.mpr (start_lt_of_below (sound n declared) inner above))

theorem mem_properties {d : Document} {q : PropertyDecl} : q ∈ d.properties ↔ ∃ n ∈ d.nodes, q ∈ n.properties :=
  List.mem_flatMap

theorem Innermost.property {n : NodeDecl} {p : Position} (inner : (parse source).Innermost p n) {q : PropertyDecl}
    (declared : q ∈ (parse source).properties) (holds : q.range.contains p = true) : q ∈ n.properties := by
  obtain ⟨m, node, property⟩ := mem_properties.mp declared
  have sound := nodes_sound source m node
  have outer := (property_within sound property).contains holds
  rcases inner.inside m node outer with same | below
  · exact same ▸ property
  · rw [nodes_tops] at node
    have deeper := fun k member => (inner_sound (tops_sound source) node k member).1
    have none := property_apart sound deeper property below p holds
    rw [inner.holds] at none
    cases none

theorem properties_holding {q : PropertyDecl} {p : Position} (declared : q ∈ (parse source).properties)
    (holds : q.range.contains p = true) : (parse source).properties.filter (·.range.contains p) = [q] := by
  have apart := properties_apart (tops_follow source) (tops_sound source)
  rw [← nodes_tops] at apart
  exact filter_of_apart PropertyDecl.range apart declared holds

end Parsed
end Document

namespace Merge

def blocks (m : Merge) : Array (Bytes × NodeDecl) := m.fragments.map fun f => (f.file, f.decl)

section Blocks

variable (m : Merge)

theorem blocks_of_fragments {n : Merge} (same : n.fragments = m.fragments) : n.blocks = m.blocks :=
  congrArg (Array.map _) same

theorem blocks_addLabels (file : Bytes) (id : NodeId) (labels : List Label) :
    (labels.foldl (fun m l => m.addLabel file id l) m).blocks = m.blocks := by
  induction labels generalizing m with
  | nil => rfl
  | cons l rest ih => rw [List.foldl_cons, ih, blocks_of_fragments m (addLabel_parts m file id l).2.1]

theorem blocks_openBlock (file : Bytes) (decl : NodeDecl) (node : Option NodeId) :
    (m.openBlock file decl node).2.blocks = m.blocks.push (file, decl) := by
  cases node with
  | none => exact Array.map_push
  | some id =>
    rw [openBlock]
    dsimp only
    rw [blocks_addLabels]
    exact Array.map_push

theorem blocks_retireAll (ids : List NodeId) : (ids.foldl retire m).blocks = m.blocks := by
  apply Array.ext_getElem?
  intro i
  rw [blocks, blocks, Array.getElem?_map, Array.getElem?_map, fragments_retireAll, Option.map_map]
  congr 1
  funext f
  rw [Function.comp_apply]
  split <;> rfl

theorem blocks_deleteNode (file : Bytes) (d : Delete) (target : Option NodeId) :
    (m.deleteNode file d target).blocks = m.blocks := by
  unfold deleteNode
  split
  · rfl
  · split
    · rfl
    · exact blocks_retireAll _ _

theorem blocks_deleteIn (file : Bytes) (node : Option NodeId) (d : Delete) : (m.deleteIn file node d).blocks = m.blocks := by
  unfold deleteIn
  split
  · rfl
  · split
    · rfl
    · exact blocks_deleteNode _ _ _ _
    · exact blocks_deleteNode _ _ _ _

theorem blocks_setProperty (node : Option NodeId) (p : Property) : (m.setProperty node p).blocks = m.blocks := by
  cases node <;> rfl

theorem blocks_childOf (node : Option NodeId) (name : Bytes) : (m.childOf node name).2.blocks = m.blocks := by
  cases node <;> rfl

theorem blocks_statements (file : Bytes) (node : Option NodeId) (fragment : FragmentId) (stmts : List Statement) :
    (statements file node fragment stmts m).blocks = m.blocks ++ ((nodesIn stmts).map (file, ·)).toArray := by
  induction node, fragment, stmts, m using statements_induct file with
  | nil => simp [statements_nil, nodesIn]
  | property node fragment decl rest m ih => rw [statements_property, ih, blocks_setProperty, nodesIn]
  | block node fragment head body rest m child grown inner opened made inside inward ih =>
    have first : grown.blocks = m.blocks := by
      rw [← blocks_childOf m node head.heading.nodeName, made]
    have second : opened.blocks = m.blocks.push (file, ⟨head, body⟩) := by
      rw [← first, ← blocks_openBlock grown file ⟨head, body⟩ child, inside]
    simp only [statements_node, made, inside]
    rw [ih, inward, second, nodesIn]
    simp
  | delete node fragment d rest m ih => rw [statements_delete, ih, blocks_deleteIn, nodesIn]

theorem blocks_topNode (file : Bytes) (decl : NodeDecl) :
    (m.topNode file decl).blocks = m.blocks ++ ((decl :: nodesIn decl.body).map (file, ·)).toArray := by
  have opened : ∀ (n : Merge) (node : Option NodeId), n.blocks = m.blocks →
      (statements file node (n.openBlock file decl node).1 decl.body (n.openBlock file decl node).2).blocks =
        m.blocks ++ ((decl :: nodesIn decl.body).map (file, ·)).toArray := by
    intro n node same
    rw [blocks_statements, blocks_openBlock, same]
    simp
  rw [topNode]
  cases decl.head.heading with
  | ref r =>
    dsimp only
    cases m.lookup r.target with
    | none => exact opened (m.report file r.range (.undefinedNode r.text)) none rfl
    | some id => exact opened m (some id) rfl
  | name name =>
    dsimp only
    split
    · exact opened m _ rfl
    · exact opened _ _ (blocks_childOf m _ _)

theorem blocks_topDelete (file : Bytes) (d : Delete) : (m.topDelete file d).blocks = m.blocks := by
  unfold topDelete
  split
  · exact blocks_deleteNode _ _ _ _
  · rfl

theorem blocks_readPlain (file : Bytes) (item : Item) :
    (readPlain file m item).blocks = m.blocks ++ (item.blocks.map (file, ·)).toArray := by
  cases item with
  | node decl => exact blocks_topNode m file decl
  | delete d => exact (blocks_topDelete m file d).trans Array.append_empty.symm
  | _ => exact Array.append_empty.symm

theorem blocks_enter (path : Bytes) : (m.enter path).blocks = m.blocks := by
  unfold enter
  split <;> rfl

end Blocks

-- What reading some items has added: only blocks that their files declare, and all of them for a file that was entered.
structure Records (files : List File) (m n : Merge) : Prop where
  keeps : ∀ b ∈ m.blocks, b ∈ n.blocks
  known : ∀ b ∈ n.blocks, b ∈ m.blocks ∨ ∃ f, fileAt? files b.1 = some f ∧ b.2 ∈ f.document.nodes
  complete : ∀ path ∈ n.files, path ∈ m.files ∨ ∃ f, fileAt? files path = some f ∧ ∀ d ∈ f.document.nodes, (path, d) ∈ n.blocks

namespace Records

variable {files : List File} {m k n : Merge}

theorem refl (m : Merge) : Records files m m := ⟨fun _ => id, fun _ => .inl, fun _ => .inl⟩

theorem trans (one : Records files m k) (two : Records files k n) : Records files m n where
  keeps b member := two.keeps b (one.keeps b member)
  known b member := (two.known b member).elim (one.known b) .inr
  complete path member := by
    rcases two.complete path member with old | new
    · rcases one.complete path old with older | ⟨f, found, all⟩
      · exact .inl older
      · exact .inr ⟨f, found, fun d declared => two.keeps _ (all d declared)⟩
    · exact .inr new

theorem noted (m : Merge) (file : Bytes) (range : Range) (finding : Finding) : Records files m (m.report file range finding) :=
  ⟨fun _ => id, fun _ => .inl, fun _ => .inl⟩

theorem readPlain {f : File} (found : fileAt? files f.path = some f) {item : Item} (part : item ∈ f.document.items) (m : Merge) :
    Records files m (readPlain f.path m item) where
  keeps b member := by
    rw [blocks_readPlain]
    exact Array.mem_append_left _ member
  known b member := by
    rw [blocks_readPlain] at member
    rcases Array.mem_append.mp member with old | new
    · exact .inl old
    · obtain ⟨n, declared, same⟩ := List.mem_map.mp (List.mem_toArray.mp new)
      subst same
      exact .inr ⟨f, found, Document.mem_nodes.mpr ⟨item, part, declared⟩⟩
  complete path member := by
    rw [files_readPlain] at member
    exact .inl member

theorem enter {g : File} {t : Bytes} (found : fileAt? files t = some g) (read : Records files (m.enter t) n)
    (all : ∀ item ∈ g.document.items, ∀ d ∈ item.blocks, (t, d) ∈ n.blocks) : Records files m n where
  keeps b member := read.keeps b ((blocks_enter m t).symm ▸ member)
  known b member := (read.known b member).imp_left fun old => blocks_enter m t ▸ old
  complete path member := by
    rcases read.complete path member with old | new
    · rw [files_enter] at old
      by_cases known : t ∈ m.files
      · rw [if_pos known] at old
        exact .inl old
      · rw [if_neg known] at old
        rcases List.mem_append.mp old with older | this
        · exact .inl older
        · cases List.mem_singleton.mp this
          refine .inr ⟨g, found, fun d declared => ?_⟩
          obtain ⟨item, part, node⟩ := Document.mem_nodes.mp declared
          exact all item part d node
    · exact .inr new

end Records

theorem Expands.records {files : List File} {chain : List Bytes} {f : File} {items : List Item} {m n : Merge}
    (run : Expands files chain f items m n) (found : fileAt? files f.path = some f)
    (part : ∀ item ∈ items, item ∈ f.document.items) :
    Records files m n ∧ ∀ item ∈ items, ∀ d ∈ item.blocks, (f.path, d) ∈ n.blocks := by
  -- An include declares no node of its own file.
  have skip : ∀ {items : List Item} {i : Include} {n : Merge}, (∀ item ∈ items, ∀ d ∈ item.blocks, (f.path, d) ∈ n.blocks) →
      ∀ item ∈ .include i :: items, ∀ d ∈ item.blocks, (f.path, d) ∈ n.blocks := by
    intro items i n rest
    exact List.forall_mem_cons.mpr ⟨List.forall_mem_nil _, rest⟩
  induction run with
  | done => exact ⟨.refl _, List.forall_mem_nil _⟩
  | @plain chain f item items m n plain rest ih =>
    obtain ⟨read, all⟩ := ih found (fun i member => part i (List.mem_cons_of_mem _ member)) skip
    refine ⟨(Records.readPlain found (part item List.mem_cons_self) m).trans read, ?_⟩
    refine List.forall_mem_cons.mpr ⟨fun d declared => read.keeps _ ?_, all⟩
    rw [blocks_readPlain]
    exact Array.mem_append_right _ (by simpa using declared)
  | passed _ _ ih =>
    obtain ⟨read, all⟩ := ih found (fun i member => part i (List.mem_cons_of_mem _ member)) skip
    exact ⟨read, skip all⟩
  | cycle _ _ _ _ ih =>
    obtain ⟨read, all⟩ := ih found (fun i member => part i (List.mem_cons_of_mem _ member)) skip
    exact ⟨(Records.noted _ _ _ _).trans read, skip all⟩
  | missing _ _ _ _ _ ih =>
    obtain ⟨read, all⟩ := ih found (fun i member => part i (List.mem_cons_of_mem _ member)) skip
    exact ⟨(Records.noted _ _ _ _).trans read, skip all⟩
  | @nested chain f g i t items m k n _ _ _ loaded _ _ ihInner ihRest =>
    obtain ⟨read, all⟩ := ihRest found (fun i member => part i (List.mem_cons_of_mem _ member)) skip
    have path := path_of_fileAt loaded
    subst path
    obtain ⟨inner, whole⟩ := ihInner loaded (fun _ => id) fun rest => List.forall_mem_cons.mpr ⟨List.forall_mem_nil _, rest⟩
    exact ⟨(inner.enter loaded whole).trans read, skip all⟩

theorem Merges.records {files : List File} {roots : List Bytes} {m n : Merge} (run : Merges files roots m n) :
    Records files m n := by
  induction run with
  | done => exact .refl _
  | missing _ _ ih => exact (Records.noted _ _ _ _).trans ih
  | loaded found inner _ ih =>
    have path := path_of_fileAt found
    subst path
    obtain ⟨read, whole⟩ := inner.records found fun _ => id
    exact (read.enter found whole).trans ih

end Merge

namespace Tree

def keep (p : Position) (best : Option (FragmentId × Fragment)) (f : FragmentId × Fragment) : Option (FragmentId × Fragment) :=
  if f.2.range.contains p then
    match best with
    | some b => if f.2.range.start.before b.2.range.start then best else some f
    | none => some f
  else best

-- The block that begins last of those in a list that hold a position; none if none holds it.
def Best (blocks : List (FragmentId × Fragment)) (p : Position) : Option (FragmentId × Fragment) → Prop
  | none => ∀ f ∈ blocks, f.2.range.contains p = false
  | some e => e ∈ blocks ∧ e.2.range.contains p = true ∧
      ∀ f ∈ blocks, f.2.range.contains p = true → f.2.range.start ≤ e.2.range.start

section Search

variable {blocks : List (FragmentId × Fragment)} {p : Position} {best : Option (FragmentId × Fragment)}

theorem Best.keep (so : Best blocks p best) (f : FragmentId × Fragment) : Best (blocks ++ [f]) p (keep p best f) := by
  unfold Tree.keep
  by_cases holds : f.2.range.contains p = true
  · rw [if_pos holds]
    have last : f ∈ blocks ++ [f] := List.mem_append_right _ List.mem_cons_self
    cases best with
    | none =>
      refine ⟨last, holds, fun g member here => ?_⟩
      rcases List.mem_append.mp member with old | new
      · rw [so g old] at here
        cases here
      · exact List.mem_singleton.mp new ▸ le_rfl
    | some b =>
      obtain ⟨old, held, latest⟩ := so
      dsimp only
      by_cases early : f.2.range.start.before b.2.range.start = true
      · rw [if_pos early]
        refine ⟨List.mem_append_left _ old, held, fun g member here => ?_⟩
        rcases List.mem_append.mp member with older | new
        · exact latest g older here
        · exact List.mem_singleton.mp new ▸ (Position.before_iff.mp early).le
      · rw [if_neg early]
        rw [Position.before_iff, not_lt] at early
        refine ⟨last, holds, fun g member here => ?_⟩
        rcases List.mem_append.mp member with older | new
        · exact (latest g older here).trans early
        · exact List.mem_singleton.mp new ▸ le_rfl
  · rw [if_neg holds]
    have off := Bool.eq_false_of_not_eq_true holds
    cases best with
    | none =>
      intro g member
      rcases List.mem_append.mp member with old | new
      · exact so g old
      · exact List.mem_singleton.mp new ▸ off
    | some b =>
      obtain ⟨old, held, latest⟩ := so
      refine ⟨List.mem_append_left _ old, held, fun g member here => ?_⟩
      rcases List.mem_append.mp member with older | new
      · exact latest g older here
      · exact absurd (List.mem_singleton.mp new ▸ here) holds

theorem best_fold (blocks : List (FragmentId × Fragment)) (p : Position) : Best blocks p (blocks.foldl (Tree.keep p) none) := by
  induction blocks using List.reverseRecOn with
  | nil => exact List.forall_mem_nil _
  | append_singleton earlier f ih =>
    rw [List.foldl_append]
    exact ih.keep f

end Search

variable {t : Tree} {file : Bytes} {p : Position}

theorem mem_fragmentsOf {e : FragmentId × Fragment} : e ∈ t.fragmentsOf file ↔ t.fragment? e.1 = some e.2 ∧ e.2.file = file := by
  rw [fragmentsOf, List.mem_filter, decide_eq_true_iff, List.mem_map]
  refine and_congr_left fun _ => ?_
  constructor
  · intro listed
    obtain ⟨⟨f, id⟩, member, same⟩ := listed
    subst same
    rw [List.mem_zipIdx_iff_getElem?, Array.getElem?_toList] at member
    exact member
  · intro found
    refine ⟨(e.2, e.1), ?_, rfl⟩
    rw [List.mem_zipIdx_iff_getElem?, Array.getElem?_toList]
    exact found

theorem best_entryAt (t : Tree) (file : Bytes) (p : Position) : Best (t.fragmentsOf file) p (t.entryAt? file p) :=
  best_fold _ p

namespace Hit

def block? : Hit → Option (FragmentId × Fragment)
  | .none => Option.none
  | .entry f | .property f _ | .value f _ _ | .cell f _ _ _ => some f

def property? : Hit → Option Property
  | .none | .entry _ => Option.none
  | .property _ p | .value _ p _ | .cell _ p _ _ => some p

end Hit

theorem entry_query (t : Tree) (file : Bytes) (p : Position) : (t.query file p).block? = t.entryAt? file p := by
  unfold query
  cases t.entryAt? file p with
  | none => rfl
  | some f =>
    dsimp only
    repeat' split
    all_goals rfl

theorem property_query (t : Tree) (file : Bytes) (p : Position) : (t.query file p).property? = t.propertyAt? file p := by
  unfold query propertyAt?
  cases t.entryAt? file p with
  | none => rfl
  | some f =>
    rw [Option.bind_some]
    dsimp only
    cases propertyIn? f p with
    | none => rfl
    | some q =>
      dsimp only
      repeat' split
      all_goals rfl

structure Located (t : Tree) (file : Bytes) (d : Document) (p : Position) : Prop where
  outside : t.entryAt? file p = none ↔ ∀ n ∈ d.nodes, n.head.range.contains p = false
  inside : ∀ e, t.entryAt? file p = some e → t.fragment? e.1 = some e.2 ∧ e.2.file = file ∧ d.Innermost p e.2.decl
  -- All properties of the document that hold the position: none or one.
  property : (t.propertyAt? file p).toList.map (·.decl) = d.properties.filter (·.range.contains p)
  owner : ∀ q, t.propertyAt? file p = some q → (t.entryAt? file p).map (·.1) = some q.fragment
  entryOf : (t.query file p).block? = t.entryAt? file p
  propertyOf : (t.query file p).property? = t.propertyAt? file p

def Declares (t : Tree) (file : Bytes) (d : Document) : Prop :=
  ∀ n, n ∈ d.nodes ↔ ∃ e ∈ t.fragmentsOf file, e.2.decl = n

theorem decl_propertyIn {e : FragmentId × Fragment} :
    (propertyIn? e p).map (·.decl) = e.2.decl.properties.find? (·.range.contains p) := by
  rw [propertyIn?, properties, List.find?_map, Option.map_map]
  exact Option.map_id'

section Declared

variable {source : Bytes}

theorem Declares.outside {d : Document} (declares : t.Declares file d) :
    t.entryAt? file p = none ↔ ∀ n ∈ d.nodes, n.head.range.contains p = false := by
  have best := best_entryAt t file p
  constructor
  · intro missed n declared
    rw [missed] at best
    obtain ⟨e, member, decl⟩ := (declares n).mp declared
    exact decl ▸ best e member
  · intro outside
    cases found : t.entryAt? file p with
    | none => rfl
    | some e =>
      rw [found] at best
      obtain ⟨member, holds, -⟩ := best
      have off := outside _ ((declares e.2.decl).mpr ⟨e, member, rfl⟩)
      rw [show e.2.decl.head.range = e.2.range from rfl, holds] at off
      cases off

theorem Declares.innermost (declares : t.Declares file (.parse source)) {e : FragmentId × Fragment}
    (found : t.entryAt? file p = some e) : e ∈ t.fragmentsOf file ∧ (Document.parse source).Innermost p e.2.decl := by
  have best := best_entryAt t file p
  rw [found] at best
  obtain ⟨member, holds, latest⟩ := best
  refine ⟨member, Document.innermost_of_latest ((declares _).mpr ⟨e, member, rfl⟩) holds fun m declared here => ?_⟩
  obtain ⟨f, present, decl⟩ := (declares m).mp declared
  subst decl
  exact latest f present here

theorem Declares.property (declares : t.Declares file (.parse source)) :
    (t.propertyAt? file p).toList.map (·.decl) = (Document.parse source).properties.filter (·.range.contains p) := by
  have names : (t.propertyAt? file p).toList.map (·.decl) =
      ((t.entryAt? file p).bind fun e => e.2.decl.properties.find? (·.range.contains p)).toList := by
    unfold propertyAt?
    cases t.entryAt? file p with
    | none => rfl
    | some e =>
      rw [Option.bind_some, Option.bind_some, ← decl_propertyIn]
      cases propertyIn? e p <;> rfl
  rw [names]
  cases found : t.entryAt? file p with
  | none =>
    symm
    rw [Option.bind_none, Option.toList_none, List.filter_eq_nil_iff]
    intro q declared holds
    obtain ⟨n, node, property⟩ := Document.mem_properties.mp declared
    have off := declares.outside.mp found n node
    rw [(property_within (Document.nodes_sound source n node) property).contains holds] at off
    cases off
  | some e =>
    obtain ⟨-, inner⟩ := declares.innermost found
    rw [Option.bind_some]
    cases first : e.2.decl.properties.find? (·.range.contains p) with
    | none =>
      symm
      rw [Option.toList_none, List.filter_eq_nil_iff]
      intro q declared holds
      exact List.find?_eq_none.mp first q (inner.property declared holds) holds
    | some q =>
      have declared := Document.mem_properties.mpr ⟨_, inner.declared, List.mem_of_find?_eq_some first⟩
      have holds : q.range.contains p = true := by simpa only using List.find?_some first
      exact (Document.properties_holding declared holds).symm

theorem Declares.located (declares : t.Declares file (.parse source)) (p : Position) :
    t.Located file (.parse source) p where
  outside := declares.outside
  inside e found := by
    obtain ⟨member, inner⟩ := declares.innermost found
    obtain ⟨numbered, within⟩ := mem_fragmentsOf.mp member
    exact ⟨numbered, within, inner⟩
  property := declares.property
  owner q found := by
    obtain ⟨e, entry, property⟩ := Option.bind_eq_some_iff.mp found
    obtain ⟨decl, -, same⟩ := List.mem_map.mp (List.mem_of_find?_eq_some property)
    subst same
    rw [entry]
    rfl
  entryOf := entry_query t file p
  propertyOf := property_query t file p

end Declared

theorem declares_merge (name : Bytes) (roots : List Bytes) {files : List File} (bindings : Option Catalog) {path : Bytes}
    (entered : path ∈ (merge name roots files bindings).files) :
    ∃ f, Merge.fileAt? files path = some f ∧ (merge name roots files bindings).Declares path f.document := by
  have records := (Merge.roots_merge files roots .empty).records
  have listed : ∀ d, (path, d) ∈ (roots.foldl (Merge.addRoot files) .empty).blocks ↔
      ∃ e ∈ (merge name roots files bindings).fragmentsOf path, e.2.decl = d := by
    intro d
    rw [Merge.blocks, Array.mem_map]
    constructor
    · intro block
      obtain ⟨f, member, same⟩ := block
      obtain ⟨i, bound, here⟩ := Array.mem_iff_getElem.mp member
      cases same
      exact ⟨(i, f), mem_fragmentsOf.mpr ⟨Array.getElem?_eq_some_iff.mpr ⟨bound, here⟩, rfl⟩, rfl⟩
    · intro fragment
      obtain ⟨e, member, same⟩ := fragment
      obtain ⟨numbered, within⟩ := mem_fragmentsOf.mp member
      exact ⟨e.2, Array.mem_of_getElem? numbered, by rw [same, within]⟩
  rcases records.complete path entered with old | ⟨f, found, all⟩
  · cases old
  · refine ⟨f, found, fun n => ⟨fun declared => (listed n).mp (all n declared), fun block => ?_⟩⟩
    rcases records.known _ ((listed n).mpr block) with old | ⟨g, same, declared⟩
    · rw [show Merge.empty.blocks = #[] from Array.map_empty] at old
      cases Array.not_mem_empty _ old
    · cases found.symm.trans same
      exact declared

-- Whatever the files hold, a position in a file of the tree finds the innermost node declaration there and the property
-- declaration there; there is at most one.
theorem merge_located (name : Bytes) (roots : List Bytes) {files : List File} (bindings : Option Catalog)
    (parsed : ∀ f ∈ files, f.document = Document.parse f.text) :
    ∀ path ∈ (merge name roots files bindings).files, ∃ f, Merge.fileAt? files path = some f ∧
      ∀ p, (merge name roots files bindings).Located path f.document p := by
  intro path entered
  obtain ⟨f, found, declares⟩ := declares_merge name roots bindings entered
  refine ⟨f, found, fun p => ?_⟩
  have source := parsed f (List.mem_of_find?_eq_some found)
  rw [source] at declares ⊢
  exact declares.located p

def tangledText : Bytes :=
  utf8 "/ \x7b a \x7b p = <1>; \x7d; \x7d;\n&gone \x7b c \x7b q = \"x\"; \x7d; \x7d;\n/ \x7b /delete-node/ a; r = <1; \x7d;"

def tangledFile : File := .ofText (.ofTable []) [] (utf8 "/a.dts") tangledText

def tangledTree : Tree := merge [] [tangledFile.path, tangledFile.path] [tangledFile] none

theorem tangled_read : tangledFile.document.errors ≠ [] ∧ tangledTree.files = [tangledFile.path] ∧
    (tangledTree.entryAt? tangledFile.path ⟨2, 15⟩).map (fun e => (e.1, e.2.decl.head.heading.nodeName, e.2.node)) =
      some (8, utf8 "c", none) ∧
    (tangledTree.propertyAt? tangledFile.path ⟨2, 15⟩).map (fun q => (q.name, q.fragment)) = some (utf8 "q", 8) := by
  decide +kernel

theorem tangled_located : tangledFile.path ∈ tangledTree.files ∧ (tangledTree.entryAt? tangledFile.path ⟨2, 15⟩).isSome = true ∧
    (tangledTree.propertyAt? tangledFile.path ⟨2, 15⟩).isSome = true ∧
    ∀ path ∈ tangledTree.files, ∃ f, Merge.fileAt? [tangledFile] path = some f ∧ ∀ p, tangledTree.Located path f.document p := by
  obtain ⟨-, files, entry, property⟩ := tangled_read
  refine ⟨?_, ?_, ?_, merge_located [] [tangledFile.path, tangledFile.path] none (List.forall_mem_singleton.mpr rfl)⟩
  · rw [files]
    exact List.mem_singleton_self _
  · rw [← Option.isSome_map, entry]
    rfl
  · rw [← Option.isSome_map, property]
    rfl

end Tree
end DeviceTree
