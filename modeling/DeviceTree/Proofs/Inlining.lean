import DeviceTree.Proofs.Expansion

namespace DeviceTree

def Fragment.unplaced (f : Fragment) : Fragment := { f with file := [] }

def LabelOwner.unplaced (o : LabelOwner) : LabelOwner := { o with file := [] }

namespace Merge

-- Two merges that have built the same, whatever files the declarations stand in.
structure Twins (m n : Merge) : Prop where
  store : m.store = n.store
  fragments : m.fragments.map Fragment.unplaced = n.fragments.map Fragment.unplaced
  labels : m.labels.map LabelOwner.unplaced = n.labels.map LabelOwner.unplaced

namespace Twins

variable {m n : Merge}

theorem refl (m : Merge) : Twins m m := ⟨rfl, rfl, rfl⟩

theorem noted (twins : Twins m n) (files files' : List Bytes) (diagnostics diagnostics' : List Diagnostic) :
    Twins { m with files, diagnostics } { n with files := files', diagnostics := diagnostics' } :=
  ⟨twins.store, twins.fragments, twins.labels⟩

theorem report (twins : Twins m n) (file file' : Bytes) (range range' : Range) (finding finding' : Finding) :
    Twins (m.report file range finding) (n.report file' range' finding') :=
  twins.noted m.files n.files _ _

theorem store_edit (twins : Twins m n) (edit : Store → Store) :
    Twins { m with store := edit m.store } { n with store := edit n.store } :=
  ⟨congrArg edit twins.store, twins.fragments, twins.labels⟩

theorem size (twins : Twins m n) : m.fragments.size = n.fragments.size := by
  have sizes := congrArg Array.size twins.fragments
  rwa [Array.size_map, Array.size_map] at sizes

theorem owner (twins : Twins m n) (label : Bytes) : (m.owner? label).map (·.node) = (n.owner? label).map (·.node) := by
  have found : ∀ k : Merge, (k.owner? label).map (·.node) =
      ((k.labels.map LabelOwner.unplaced).find? (·.name = label)).map (·.node) := by
    intro k
    rw [List.find?_map, Option.map_map]
    rfl
  rw [found, found, twins.labels]

theorem lookup (twins : Twins m n) (target : Target) : m.lookup target = n.lookup target := by
  cases target with
  | label l => exact twins.owner l
  | path p => exact congrArg (·.find? p) twins.store

end Twins

def freed (s : Store) (owner : Option NodeId) (id : NodeId) (label : Bytes) : Store :=
  match owner with
  | some other => if other = id then s else s.modify other fun n => { n with labels := n.labels.erase label }
  | none => s

theorem addLabel_parts (m : Merge) (file : Bytes) (id : NodeId) (l : Label) :
    (m.addLabel file id l).store = (freed m.store ((m.owner? l.name).map (·.node)) id l.name).modify id
        (fun n => if n.labels.elem l.name then n else { n with labels := n.labels ++ [l.name] }) ∧
      (m.addLabel file id l).fragments = m.fragments ∧
      (m.addLabel file id l).labels = m.labels.filter (·.name != l.name) ++ [⟨l.name, id, file, l.range⟩] := by
  unfold addLabel freed
  cases m.owner? l.name with
  | none => exact ⟨rfl, rfl, rfl⟩
  | some owner =>
    by_cases mine : owner.node = id
    · simp only [mine, if_true, Option.map_some, and_self]
    · simp only [mine, if_false, Option.map_some]
      exact ⟨trivial, rfl, rfl⟩

section Steps

variable {m n : Merge} (file file' : Bytes)

theorem addLabel_twins (twins : Twins m n) (id : NodeId) (l : Label) :
    Twins (m.addLabel file id l) (n.addLabel file' id l) := by
  obtain ⟨store, fragments, labels⟩ := addLabel_parts m file id l
  obtain ⟨store', fragments', labels'⟩ := addLabel_parts n file' id l
  have others : ∀ labels : List LabelOwner, (labels.filter (·.name != l.name)).map LabelOwner.unplaced =
      (labels.map LabelOwner.unplaced).filter (·.name != l.name) := by
    intro labels
    rw [List.filter_map]
    rfl
  refine ⟨?_, ?_, ?_⟩
  · rw [store, store', twins.store, twins.owner]
  · rw [fragments, fragments', twins.fragments]
  · rw [labels, labels', List.map_append, List.map_append, others, others, twins.labels]
    rfl

theorem foldl_twins {α : Type} {step step' : Merge → α → Merge}
    (keeps : ∀ {m n : Merge} (x : α), Twins m n → Twins (step m x) (step' n x)) (xs : List α) (twins : Twins m n) :
    Twins (xs.foldl step m) (xs.foldl step' n) := by
  induction xs generalizing m n with
  | nil => exact twins
  | cons x rest ih => exact ih (keeps x twins)

theorem openBlock_twins (twins : Twins m n) (decl : NodeDecl) (node : Option NodeId) :
    (m.openBlock file decl node).1 = (n.openBlock file' decl node).1 ∧
      Twins (m.openBlock file decl node).2 (n.openBlock file' decl node).2 := by
  have pushed : (m.fragments.push ⟨file, decl, node, false⟩).map Fragment.unplaced =
      (n.fragments.push ⟨file', decl, node, false⟩).map Fragment.unplaced := by
    rw [Array.map_push, Array.map_push, twins.fragments]
    rfl
  cases node with
  | none => exact ⟨twins.size, twins.store, pushed, twins.labels⟩
  | some id =>
    refine ⟨twins.size, foldl_twins (fun l paired => addLabel_twins file file' paired id l) decl.head.labels ?_⟩
    refine ⟨?_, pushed, twins.labels⟩
    rw [twins.store, twins.size]

theorem setProperty_twins (twins : Twins m n) (node : Option NodeId) (p : Property) :
    Twins (m.setProperty node p) (n.setProperty node p) := by
  cases node with
  | none => exact twins
  | some id => exact twins.store_edit (·.modify id fun n => { n with properties := n.properties.set p })

theorem childOf_twins (twins : Twins m n) (node : Option NodeId) (name : Bytes) :
    (m.childOf node name).1 = (n.childOf node name).1 ∧ Twins (m.childOf node name).2 (n.childOf node name).2 := by
  cases node with
  | none => exact ⟨rfl, twins⟩
  | some id =>
    refine ⟨?_, twins.store_edit fun s => (s.child id name).2⟩
    simp only [childOf, twins.store]

theorem map_modify_unplaced (fragments : Array Fragment) (i : Nat) :
    (fragments.modify i fun f => { f with deleted := true }).map Fragment.unplaced =
      (fragments.map Fragment.unplaced).modify i fun f => { f with deleted := true } := by
  refine Array.ext_getElem? fun j => ?_
  rw [Array.getElem?_map, Array.getElem?_modify, Array.getElem?_modify, Array.getElem?_map]
  by_cases here : i = j
  · simp only [here, if_true, Option.map_map]
    rfl
  · simp only [here, if_false]

theorem retire_twins (twins : Twins m n) (id : NodeId) : Twins (m.retire id) (n.retire id) := by
  have marked : ∀ (ids : List FragmentId) (fragments : Array Fragment),
      (ids.foldl (fun fragments f => fragments.modify f fun f => { f with deleted := true }) fragments).map
          Fragment.unplaced =
        ids.foldl (fun fragments f => fragments.modify f fun f => { f with deleted := true })
          (fragments.map Fragment.unplaced) := by
    intro ids
    induction ids with
    | nil => exact fun _ => rfl
    | cons i rest ih =>
      intro fragments
      rw [List.foldl_cons, List.foldl_cons, ih, map_modify_unplaced]
  have kept : ∀ (n : Node) (labels : List LabelOwner),
      (labels.filter fun o => !(o.node = id && n.labels.elem o.name)).map LabelOwner.unplaced =
        (labels.map LabelOwner.unplaced).filter fun o => !(o.node = id && n.labels.elem o.name) := by
    intro n labels
    rw [List.filter_map]
    rfl
  refine ⟨twins.store, ?_, ?_⟩
  · rw [retire, retire]
    dsimp only
    rw [marked, marked, twins.fragments, twins.store]
  · rw [retire, retire]
    dsimp only
    rw [kept, kept, twins.labels, twins.store]

theorem deleteNode_twins (twins : Twins m n) (d : Delete) (target : Option NodeId) :
    Twins (m.deleteNode file d target) (n.deleteNode file' d target) := by
  cases target with
  | none => exact twins.report file file' _ _ _ _
  | some id =>
    rw [deleteNode, deleteNode, twins.store]
    cases (n.store.node id).parent with
    | none => exact twins.report file file' _ _ _ _
    | some parent =>
      have cut : Twins { m with store := n.store.detach parent (n.store.node id).name }
          { n with store := n.store.detach parent (n.store.node id).name } := ⟨rfl, twins.fragments, twins.labels⟩
      exact foldl_twins (fun i paired => retire_twins paired i) _ cut

theorem deleteIn_twins (twins : Twins m n) (node : Option NodeId) (d : Delete) :
    Twins (m.deleteIn file node d) (n.deleteIn file' node d) := by
  cases node with
  | none => exact twins
  | some id =>
    rw [deleteIn, deleteIn]
    cases d.victim with
    | property name => exact twins.store_edit (·.modify id fun n => { n with properties := n.properties.erase name })
    | node name =>
      dsimp only
      rw [twins.store]
      exact deleteNode_twins file file' twins d _
    | target r =>
      dsimp only
      rw [twins.lookup]
      exact deleteNode_twins file file' twins d _

theorem statements_twins (node : Option NodeId) (fragment : FragmentId) (stmts : List Statement) (twins : Twins m n) :
    Twins (statements file node fragment stmts m) (statements file' node fragment stmts n) := by
  induction node, fragment, stmts, m using statements_induct file generalizing n with
  | nil node fragment m =>
    rw [statements_nil, statements_nil]
    exact twins
  | property node fragment decl rest m ih =>
    rw [statements_property, statements_property]
    exact ih (setProperty_twins twins node _)
  | block node fragment head body rest m child m₁ inner m₂ grown opened ihBody ihRest =>
    obtain ⟨sameChild, first⟩ := childOf_twins twins node head.heading.nodeName
    rw [grown] at sameChild first
    obtain ⟨sameInner, second⟩ := openBlock_twins file file' first ⟨head, body⟩ child
    rw [opened] at sameInner second
    simp only [statements_node, grown, opened]
    dsimp only at sameChild sameInner second ⊢
    rw [← sameChild, ← sameInner]
    exact ihRest (ihBody second)
  | delete node fragment d rest m ih =>
    rw [statements_delete, statements_delete]
    exact ih (deleteIn_twins file file' twins node d)

theorem block_twins (twins : Twins m n) (decl : NodeDecl) (node : Option NodeId) :
    Twins (statements file node (m.openBlock file decl node).1 decl.body (m.openBlock file decl node).2)
      (statements file' node (n.openBlock file' decl node).1 decl.body (n.openBlock file' decl node).2) := by
  obtain ⟨same, opened⟩ := openBlock_twins file file' twins decl node
  rw [same]
  exact statements_twins file file' node _ decl.body opened

theorem topNode_twins (twins : Twins m n) (decl : NodeDecl) : Twins (m.topNode file decl) (n.topNode file' decl) := by
  rw [topNode, topNode]
  cases decl.head.heading with
  | ref r =>
    dsimp only
    rw [twins.lookup]
    cases n.lookup r.target with
    | none => exact block_twins file file' (twins.report file file' _ _ _ _) decl none
    | some id => exact block_twins file file' twins decl (some id)
  | name name =>
    dsimp only
    split
    · exact block_twins file file' twins decl _
    · obtain ⟨same, grown⟩ := childOf_twins twins (some Store.rootId) name
      rw [same]
      exact block_twins file file' grown decl _

theorem topDelete_twins (twins : Twins m n) (d : Delete) : Twins (m.topDelete file d) (n.topDelete file' d) := by
  rw [topDelete, topDelete]
  cases d.victim with
  | target r =>
    dsimp only
    rw [twins.lookup]
    exact deleteNode_twins file file' twins d _
  | node name => exact twins.report file file' _ _ _ _
  | property name => exact twins.report file file' _ _ _ _

end Steps

-- The items of a file with each include replaced by what its file stands for. A header and an include that
-- was not found stand for nothing.
inductive Inlines (look : Bytes → Option File) : File → List Item → List Item → Prop where
  | done (f : File) : Inlines look f [] []
  | keep {f : File} {item : Item} {items out : List Item} (plain : ∀ i, item ≠ .include i)
      (rest : Inlines look f items out) : Inlines look f (item :: items) (item :: out)
  | drop {f : File} {i : Include} {items out : List Item} (nothing : f.target? i = none ∨ i.isHeader = true)
      (rest : Inlines look f items out) : Inlines look f (.include i :: items) out
  | insert {f g : File} {i : Include} {t : Bytes} {items inner out : List Item} (target : f.target? i = some t)
      (header : i.isHeader = false) (found : look t = some g) (inside : Inlines look g g.document.items inner)
      (rest : Inlines look f items out) : Inlines look f (.include i :: items) (inner ++ out)

inductive InlinesAll (look : Bytes → Option File) : List Bytes → List Item → Prop where
  | done : InlinesAll look [] []
  | root {r : Bytes} {f : File} {roots : List Bytes} {inner out : List Item} (found : look r = some f)
      (inside : Inlines look f f.document.items inner) (rest : InlinesAll look roots out) :
      InlinesAll look (r :: roots) (inner ++ out)

theorem Inlines.functional {look : Bytes → Option File} {f : File} {items out other : List Item}
    (one : Inlines look f items out) (two : Inlines look f items other) : other = out := by
  induction one generalizing other with
  | done f =>
    cases two
    rfl
  | keep plain _ ih =>
    cases two with
    | keep _ rest => rw [ih rest]
    | drop => exact absurd rfl (plain _)
    | insert => exact absurd rfl (plain _)
  | drop nothing _ ih =>
    cases two with
    | keep plain _ => exact absurd rfl (plain _)
    | drop _ rest => exact ih rest
    | insert target header => rcases nothing with none | some <;> simp_all
  | insert target header found _ _ ihInside ihRest =>
    cases two with
    | keep plain _ => exact absurd rfl (plain _)
    | drop nothing => rcases nothing with none | some <;> simp_all
    | insert target' _ found' inside' rest' =>
      cases target.symm.trans target'
      cases found.symm.trans found'
      rw [ihInside inside', ihRest rest']

theorem InlinesAll.functional {look : Bytes → Option File} {roots : List Bytes} {out other : List Item}
    (one : InlinesAll look roots out) (two : InlinesAll look roots other) : other = out := by
  induction one generalizing other with
  | done =>
    cases two
    rfl
  | root found inside _ ih =>
    cases two with
    | root found' inside' rest' =>
      cases found.symm.trans found'
      rw [inside.functional inside', ih rest']

theorem Inlines.plain {look : Bytes → Option File} {f : File} {items out : List Item} (inlines : Inlines look f items out) :
    ∀ i, .include i ∉ out := by
  induction inlines with
  | done => simp
  | keep plain _ ih =>
    intro i member
    rcases List.mem_cons.mp member with here | later
    · exact plain i here.symm
    · exact ih i later
  | drop _ _ ih => exact ih
  | insert _ _ _ _ _ ihInside ihRest =>
    intro i member
    exact (List.mem_append.mp member).elim (ihInside i) (ihRest i)

theorem InlinesAll.plain {look : Bytes → Option File} {roots : List Bytes} {out : List Item}
    (inlines : InlinesAll look roots out) : ∀ i, .include i ∉ out := by
  induction inlines with
  | done => simp
  | root _ inside _ ih =>
    intro i member
    exact (List.mem_append.mp member).elim (inside.plain i) (ih i)

def readPlain (path : Bytes) (m : Merge) : Item → Merge
  | .node decl => m.topNode path decl
  | .delete d => m.topDelete path d
  | _ => m

theorem readItem_plain {item : Item} (plain : ∀ i, item ≠ .include i) (files : List File) (fuel : Nat)
    (chain : List Bytes) (f : File) (m : Merge) : readItem files fuel chain f m item = readPlain f.path m item := by
  rcases item with i | directive | d | decl
  · exact absurd rfl (plain i)
  all_goals rfl

theorem readPlain_twins {m n : Merge} (path path' : Bytes) (item : Item) (twins : Twins m n) :
    Twins (readPlain path m item) (readPlain path' n item) := by
  cases item with
  | node decl => exact topNode_twins path path' twins decl
  | delete d => exact topDelete_twins path path' twins d
  | _ => exact twins

theorem enter_twins {m n : Merge} (path : Bytes) (twins : Twins m n) : Twins (m.enter path) n := by
  unfold enter
  split
  · exact twins
  · exact twins.noted _ n.files m.diagnostics n.diagnostics

-- The items have been read as their inlined form is, into merges that had built the same.
def ReadsAs (step : Merge → Merge) (out : List Item) : Prop :=
  ∀ (path : Bytes) (m n : Merge), Twins m n → Twins (step m) (out.foldl (readPlain path) n)

theorem items_inlined {files : List File} {fuel : Nat} {chain : List Bytes} {f : File} (items : List Item)
    (found : fileAt? files f.path = some f) (part : ∀ i ∈ items, i ∈ f.document.items)
    (deeper : ∀ t, Includes (fileAt? files) f.path t → t ∉ chain ∧ ∃ g inner, fileAt? files t = some g ∧
      Inlines (fileAt? files) g g.document.items inner ∧ ReadsAs (expand files fuel chain g) inner) :
    ∃ out, Inlines (fileAt? files) f items out ∧ ReadsAs (fun m => items.foldl (readItem files fuel chain f) m) out := by
  induction items with
  | nil => exact ⟨[], .done f, fun _ _ _ twins => twins⟩
  | cons item rest ih =>
    obtain ⟨out, inlines, reads⟩ := ih fun i member => part i (List.mem_cons_of_mem _ member)
    by_cases plain : ∀ i, item ≠ .include i
    · refine ⟨item :: out, .keep plain inlines, ?_⟩
      intro path m n twins
      have first := readPlain_twins f.path path item twins
      rw [← readItem_plain plain files fuel chain] at first
      exact reads path _ _ first
    · obtain ⟨i, same⟩ := Classical.not_forall.mp plain
      obtain rfl := Classical.not_not.mp same
      by_cases nothing : f.target? i = none ∨ i.isHeader = true
      · have skipped : ∀ m, readItem files fuel chain f m (.include i) = m := by
          intro m
          rw [readItem]
          rcases nothing with none | header
          · rw [none]
          · cases f.target? i <;> simp [header]
        refine ⟨out, .drop nothing inlines, ?_⟩
        intro path m n twins
        have later := reads path m n twins
        rwa [← skipped m] at later
      · obtain ⟨t, target⟩ : ∃ t, f.target? i = some t :=
          Option.ne_none_iff_exists'.mp fun none => nothing (.inl none)
        have header : i.isHeader = false := by simpa using fun header => nothing (.inr header)
        obtain ⟨apart, g, inner, there, inside, entered⟩ :=
          deeper t ⟨f, i, found, part _ List.mem_cons_self, header, target⟩
        have step : ∀ m, readItem files fuel chain f m (.include i) = expand files fuel chain g m := by
          intro m
          rw [readItem]
          simp [target, header, apart, there]
        refine ⟨inner ++ out, .insert target header there inside inlines, ?_⟩
        intro path m n twins
        have first := entered path m n twins
        rw [← step] at first
        rw [List.foldl_append]
        exact reads path _ _ first

structure Loaded (look : Bytes → Option File) (roots : List Bytes) : Prop where
  started : ∀ r ∈ roots, (look r).isSome = true
  followed : ∀ p t, Reaches look roots p → Includes look p t → (look t).isSome = true

def Acyclic (look : Bytes → Option File) (roots : List Bytes) : Prop :=
  ∀ p, Reaches look roots p → ¬ Relation.TransGen (Includes look) p p

theorem acyclic_of_rank {look : Bytes → Option File} (roots : List Bytes) (rank : Bytes → Nat)
    (falls : ∀ p t, Includes look p t → rank t < rank p) : Acyclic look roots := by
  intro p _ cycle
  have below : ∀ t, Relation.TransGen (Includes look) p t → rank t < rank p := by
    intro t way
    induction way with
    | single step => exact falls _ _ step
    | tail _ step ih => exact Nat.lt_trans (falls _ _ step) ih
  exact Nat.lt_irrefl _ (below p cycle)

-- The files on a chain lead to the file that is read, so none of them is included again.
theorem expand_inlined {files : List File} {roots : List Bytes} (loaded : Loaded (fileAt? files) roots)
    (acyclic : Acyclic (fileAt? files) roots) {fuel : Nat} {chain : List Bytes} {f : File}
    (enough : Enough files chain fuel) (found : fileAt? files f.path = some f)
    (reached : Reaches (fileAt? files) roots f.path)
    (line : ∀ p ∈ chain, Relation.TransGen (Includes (fileAt? files)) p f.path) :
    ∃ out, Inlines (fileAt? files) f f.document.items out ∧ ReadsAs (expand files fuel chain f) out := by
  induction fuel generalizing chain f with
  | zero =>
    obtain ⟨less, absurd, -⟩ := enough.enter found fun member => acyclic _ reached (line _ member)
    cases absurd
  | succ fuel ih =>
    obtain ⟨less, equal, enough⟩ := enough.enter found fun member => acyclic _ reached (line _ member)
    cases equal
    have deeper : ∀ t, Includes (fileAt? files) f.path t → t ∉ chain ++ [f.path] ∧ ∃ g inner, fileAt? files t = some g ∧
        Inlines (fileAt? files) g g.document.items inner ∧ ReadsAs (expand files fuel (chain ++ [f.path]) g) inner := by
      intro t includes
      have lead : ∀ p ∈ chain ++ [f.path], Relation.TransGen (Includes (fileAt? files)) p t := by
        intro p member
        rcases List.mem_append.mp member with before | last
        · exact (line p before).tail includes
        · rw [List.mem_singleton.mp last]
          exact .single includes
      have below : Reaches (fileAt? files) roots t := by
        obtain ⟨r, root, way⟩ := reached
        exact ⟨r, root, way.tail includes⟩
      obtain ⟨g, there⟩ := Option.isSome_iff_exists.mp (loaded.followed _ t reached includes)
      have path := path_of_fileAt there
      subst path
      obtain ⟨inner, inside, entered⟩ := ih enough there below lead
      exact ⟨fun member => acyclic _ below (lead _ member), g, inner, there, inside, entered⟩
    obtain ⟨out, inlines, reads⟩ := items_inlined f.document.items found (fun _ member => member) deeper
    refine ⟨out, inlines, ?_⟩
    intro path m n twins
    rw [expand_succ]
    exact reads path _ _ (enter_twins f.path twins)

theorem roots_inlined {files : List File} {all : List Bytes} (loaded : Loaded (fileAt? files) all)
    (acyclic : Acyclic (fileAt? files) all) (roots : List Bytes) (part : ∀ r ∈ roots, r ∈ all) :
    ∃ out, InlinesAll (fileAt? files) roots out ∧ ReadsAs (fun m => roots.foldl (addRoot files) m) out := by
  induction roots with
  | nil => exact ⟨[], .done, fun _ _ _ twins => twins⟩
  | cons r rest ih =>
    obtain ⟨out, inlines, reads⟩ := ih fun p member => part p (List.mem_cons_of_mem _ member)
    have mine := part r List.mem_cons_self
    obtain ⟨f, found⟩ := Option.isSome_iff_exists.mp (loaded.started r mine)
    have path := path_of_fileAt found
    subst path
    obtain ⟨inner, inside, entered⟩ := expand_inlined loaded acyclic (enough_length files) found ⟨_, mine, .refl⟩ nofun
    refine ⟨inner ++ out, .root found inside inlines, ?_⟩
    intro path m n twins
    have first : Twins (addRoot files m f.path) (inner.foldl (readPlain path) n) := by
      rw [addRoot, found]
      exact entered path m n twins
    rw [List.foldl_append]
    exact reads path _ _ first

theorem addRoot_alone {f : File} (plain : ∀ i, .include i ∉ f.document.items) (m : Merge) :
    addRoot [f] m f.path = f.document.items.foldl (readPlain f.path) (m.enter f.path) := by
  have found : fileAt? [f] f.path = some f := by simp [fileAt?]
  have alike : ∀ (items : List Item) (m : Merge), (∀ i, .include i ∉ items) →
      items.foldl (readItem [f] 0 ([] ++ [f.path]) f) m = items.foldl (readPlain f.path) m := by
    intro items
    induction items with
    | nil => exact fun _ _ => rfl
    | cons item rest ih =>
      intro m plain
      rw [List.foldl_cons, List.foldl_cons, readItem_plain fun i same => plain i (by rw [same]; exact List.mem_cons_self)]
      exact ih _ fun i member => plain i (List.mem_cons_of_mem _ member)
  rw [addRoot, found]
  exact (expand_succ [f] 0 [] f m).trans (alike _ _ plain)

end Merge

namespace Tree
open Merge

-- The roots stand for one list of items, and any file that holds those gives the same tree.
theorem merge_inlined (name : Bytes) {roots : List Bytes} {files : List File} (bindings : Option Catalog)
    (loaded : Loaded (fileAt? files) roots) (acyclic : Acyclic (fileAt? files) roots) :
    ∃ items, InlinesAll (fileAt? files) roots items ∧ (∀ other, InlinesAll (fileAt? files) roots other → other = items) ∧
      ∀ f : File, f.document.items = items →
        (merge name roots files bindings).store = (merge name [f.path] [f] bindings).store ∧
        (merge name roots files bindings).fragments.map Fragment.unplaced =
          (merge name [f.path] [f] bindings).fragments.map Fragment.unplaced ∧
        (merge name roots files bindings).labels.map LabelOwner.unplaced =
          (merge name [f.path] [f] bindings).labels.map LabelOwner.unplaced := by
  obtain ⟨items, inlines, reads⟩ := roots_inlined loaded acyclic roots fun _ member => member
  refine ⟨items, inlines, fun other => inlines.functional, ?_⟩
  rintro f rfl
  have twins := reads f.path .empty (Merge.empty.enter f.path) ((Twins.refl .empty).noted _ _ _ _)
  rw [← addRoot_alone inlines.plain] at twins
  exact ⟨twins.store, twins.fragments, twins.labels⟩

def chipInclude : Include := ⟨.zero, .zero, utf8 "chip.dtsi", false⟩

def chipNode : Item :=
  .node ⟨⟨.zero, .zero, [], .name (utf8 "/"), true⟩,
    [.node ⟨.zero, .zero, [⟨utf8 "uart", .zero⟩], .name (utf8 "serial"), true⟩ []]⟩

def boardDelete : Item := .delete ⟨.zero, .zero, .target ⟨.zero, .label (utf8 "uart")⟩⟩

def chipFile : File := ⟨utf8 "/chip.dtsi", [], ⟨[chipNode], []⟩, [], []⟩

def boardFile : File :=
  ⟨utf8 "/board.dts", [], ⟨[.include chipInclude, boardDelete], []⟩, [⟨chipInclude, some chipFile.path⟩], []⟩

def flatFile : File := ⟨utf8 "/flat.dts", [], ⟨[chipNode, boardDelete], []⟩, [], []⟩

theorem board_includes {p t : Bytes} (includes : Includes (fileAt? [boardFile, chipFile]) p t) :
    p = boardFile.path ∧ t = chipFile.path := by
  obtain ⟨f, i, found, member, -, target⟩ := includes
  have present := List.mem_of_find?_eq_some found
  have path := path_of_fileAt found
  simp only [List.mem_cons, List.not_mem_nil, or_false] at present
  rcases present with rfl | rfl
  · simp only [boardFile, boardDelete, List.mem_cons, List.not_mem_nil, or_false, Item.include.injEq, reduceCtorEq] at member
    subst member
    exact ⟨path.symm, (Option.some.inj target).symm⟩
  · simp [chipFile, chipNode] at member

theorem board_inlined : Loaded (fileAt? [boardFile, chipFile]) [boardFile.path] ∧
    Acyclic (fileAt? [boardFile, chipFile]) [boardFile.path] ∧
    InlinesAll (fileAt? [boardFile, chipFile]) [boardFile.path] flatFile.document.items ∧
    (merge [] [boardFile.path] [boardFile, chipFile] none).store = (merge [] [flatFile.path] [flatFile] none).store := by
  have loaded : Loaded (fileAt? [boardFile, chipFile]) [boardFile.path] := by
    constructor
    · intro r member
      rw [List.mem_singleton.mp member]
      rfl
    · intro p t _ includes
      rw [(board_includes includes).2]
      rfl
  have acyclic : Acyclic (fileAt? [boardFile, chipFile]) [boardFile.path] := by
    refine acyclic_of_rank _ (fun p => if p = boardFile.path then 1 else 0) ?_
    intro p t includes
    obtain ⟨rfl, rfl⟩ := board_includes includes
    decide
  have inlines : InlinesAll (fileAt? [boardFile, chipFile]) [boardFile.path] flatFile.document.items :=
    .root rfl (.insert rfl rfl rfl (.keep (by simp [chipNode]) (.done chipFile))
      (.keep (by simp [boardDelete]) (.done boardFile))) .done
  obtain ⟨items, -, only, same⟩ := merge_inlined [] none loaded acyclic
  exact ⟨loaded, acyclic, inlines, (same flatFile (only _ inlines)).1⟩

end Tree
end DeviceTree
