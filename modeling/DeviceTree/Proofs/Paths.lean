import DeviceTree.Proofs.Declarations
import DeviceTree.Proofs.Naming
import DeviceTree.Tree.Query

namespace DeviceTree
open Lexer

theorem Bytes.dropTail_append (text tail : Bytes) : Bytes.dropTail? tail (text ++ tail) = some text := by
  rw [dropTail?, List.reverse_append, Bytes.dropLead_eq_some_iff.mpr rfl]
  simp

theorem Bytes.endsWith_slash {text : Bytes} : Bytes.endsWith text (utf8 "/") = true ↔ text.getLast? = some 0x2f := by
  have slash : (utf8 "/").reverse = [0x2f] := by decide
  rw [endsWith, dropTail?, slash, Option.isSome_map, ← List.head?_reverse]
  cases text.reverse with
  | nil => simp [dropLead?]
  | cons b rest =>
    by_cases same : 0x2f = b
    · simp [dropLead?, same]
    · simp [dropLead?, same, Ne.symm same]

theorem slash_cut {front front' name name' : Bytes} (plain : 0x2f ∉ name) (plain' : 0x2f ∉ name')
    (same : front ++ 0x2f :: name = front' ++ 0x2f :: name') : front = front' ∧ name = name' := by
  have shorter : ∀ {a b n m : Bytes}, 0x2f ∉ n → 0x2f :: n = b ++ 0x2f :: m → a ++ b = a ∧ n = m := by
    intro a b n m plain equal
    cases b with
    | nil => exact ⟨List.append_nil a, (List.cons.inj equal).2⟩
    | cons x b =>
      have inside := (List.cons.inj equal).2
      exact absurd (inside ▸ List.mem_append_right b List.mem_cons_self) plain
  rcases List.append_eq_append_iff.mp same with ⟨b, rfl, equal⟩ | ⟨b, rfl, equal⟩
  · obtain ⟨whole, names⟩ := shorter (a := front) plain equal
    exact ⟨whole.symm, names⟩
  · obtain ⟨whole, names⟩ := shorter (a := front') plain' equal
    exact ⟨whole, names.symm⟩

def Vocabulary.named : Vocabulary := ⟨IsName, fun _ => True, fun _ => True⟩

theorem covers_named {source : Bytes} (stmts : List Statement) (sound : SoundBelow source stmts) :
    Vocabulary.named.Covers stmts := by
  fun_induction nodesIn stmts with
  | case1 => exact Parser.covers_nil _
  | case2 head body rest ihBody ihRest =>
    obtain ⟨plain, below⟩ := sound
    rw [List.forall_mem_cons] at plain
    rw [nodesIn, List.forall_mem_cons] at below
    obtain ⟨name, heading, proper⟩ := plain.1
    rw [Vocabulary.Covers]
    refine ⟨⟨fun _ _ => trivial, ?_, ihBody ⟨below.1.plain, ?_⟩⟩, ihRest ⟨plain.2, ?_⟩⟩
    · rw [heading]
      exact proper
    · exact fun n member => below.2 n (List.mem_append_left _ member)
    · exact fun n member => below.2 n (List.mem_append_right _ member)
  | case3 decl rest ih =>
    obtain ⟨plain, below⟩ := sound
    rw [nodesIn] at below
    rw [Vocabulary.Covers]
    exact ⟨trivial, ih ⟨fun stmt member => plain stmt (List.mem_cons_of_mem _ member), below⟩⟩
  | case4 d rest ih =>
    obtain ⟨plain, below⟩ := sound
    rw [nodesIn] at below
    rw [Vocabulary.Covers]
    exact ih ⟨fun stmt member => plain stmt (List.mem_cons_of_mem _ member), below⟩

theorem Document.parse_named (source : Bytes) : ∀ i ∈ (parse source).items, Vocabulary.named.CoversItem i := by
  intro i member
  have sound := (parse_sound source).2 i member
  rcases i with i | directive | d | decl
  · trivial
  · trivial
  · trivial
  · obtain ⟨node, below, heading⟩ := sound
    exact ⟨fun _ _ => trivial, heading, covers_named decl.body ⟨node.plain, below⟩⟩

theorem not_slash_of_name {name : Bytes} (proper : IsName name) : 0x2f ∉ name := by
  intro slash
  exact absurd (proper.2.2 0x2f slash) (by decide)

namespace Store

structure Addressed (s : Store) : Prop where
  shaped : s.Shaped
  pathed : s.Pathed
  root : (s.node rootId).path = utf8 "/"
  named : ∀ p c, s.Edge p c → IsName (s.node c).name

variable {s : Store}

theorem Addressed.path_slash (addressed : s.Addressed) {id : Nat} (reached : s.Reachable id) :
    ∃ front, (s.node id).path = front ++ [0x2f] := by
  cases reached with
  | refl => exact ⟨[], addressed.root⟩
  | tail _ edge => exact ⟨_, addressed.pathed _ _ edge⟩

theorem Addressed.path_absolute (addressed : s.Addressed) {id : Nat} (reached : s.Reachable id) :
    ∃ rest, (s.node id).path = 0x2f :: rest := by
  induction reached with
  | refl => exact ⟨[], addressed.root⟩
  | tail _ edge ih =>
    obtain ⟨rest, path⟩ := ih
    rw [addressed.pathed _ _ edge, path]
    exact ⟨_, rfl⟩

theorem Addressed.path_child (addressed : s.Addressed) {p c : Nat} (edge : s.Edge p c) :
    (s.node c).path ≠ utf8 "/" := by
  intro same
  have nonempty := (addressed.named p c edge).1
  have length := congrArg List.length same
  rw [addressed.pathed p c edge] at length
  have name := List.length_pos_iff.mpr nonempty
  have slash : (utf8 "/").length = 1 := by decide
  simp only [List.length_append, slash] at length
  omega

-- Along the way down to a node: a path gives its last name and the path above it away.
theorem Addressed.path_inj (addressed : s.Addressed) {a b : Nat} (one : s.Reachable a) (two : s.Reachable b)
    (same : (s.node a).path = (s.node b).path) : a = b := by
  induction one generalizing b with
  | refl =>
    cases two with
    | refl => rfl
    | tail _ edge => exact absurd (same.symm.trans addressed.root) (addressed.path_child edge)
  | @tail p c above edge ih =>
    cases two with
    | refl => exact absurd (same.trans addressed.root) (addressed.path_child edge)
    | @tail q _ above' edge' =>
      obtain ⟨front, path⟩ := addressed.path_slash above
      obtain ⟨front', path'⟩ := addressed.path_slash above'
      rw [addressed.pathed _ _ edge, addressed.pathed _ _ edge', path, path'] at same
      have cut := List.append_cancel_right same
      rw [List.append_assoc, List.append_assoc] at cut
      obtain ⟨fronts, names⟩ := slash_cut (not_slash_of_name (addressed.named _ _ edge))
        (not_slash_of_name (addressed.named _ _ edge')) cut
      have parents := ih above' (by rw [path, path', fronts])
      subst parents
      exact addressed.shaped.named p c b edge edge' names

end Store

namespace Tree

-- What a tree keeps of its nodes: names, paths and the ways from one to another.
structure Represented (t : Tree) : Prop where
  root : (t.node Store.rootId).path = utf8 "/" ∧ (t.node Store.rootId).parent = none
  walked : ∀ id, id ∈ t.nodes ↔ t.store.Reachable id
  below : ∀ id ∈ t.nodes, id ≠ Store.rootId → ∃ p ∈ t.nodes, id ∈ (t.node p).children
  child : ∀ p ∈ t.nodes, ∀ c ∈ (t.node p).children, (t.node c).parent = some p ∧
    (t.node c).path = (t.node p).path ++ (t.node c).name ++ utf8 "/"
  siblings : ∀ p ∈ t.nodes, ((t.node p).children.map fun c => (t.node c).name).Nodup
  childNames : ∀ p ∈ t.nodes, ∀ name c,
    (t.node p).childNames.find? name = some c ↔ c ∈ (t.node p).children ∧ (t.node c).name = name
  byPath : ∀ path id, t.byPath.find? path = some id ↔ id ∈ t.nodes ∧ (t.node id).path = path
  paths : (t.nodes.map t.pathOf).Nodup
  found : ∀ id ∈ t.nodes, t.find? (t.pathOf id) = some id ∧
    t.find? (utf8 "&\x7b" ++ t.pathOf id ++ utf8 "\x7d") = some id ∧
    (id ≠ Store.rootId → t.find? (t.pathOf id).dropLast = some id)

theorem exactly_iff {t : Tree} (addressed : t.store.Addressed) (tabled : t.Tabled) (path : Bytes) (id : NodeId) :
    t.exactly? path = some id ↔ id ∈ t.nodes ∧ (t.node id).path = path := by
  rw [exactly?, tabled]
  refine ⟨Store.pathTable_sound, ?_⟩
  rintro ⟨member, rfl⟩
  obtain ⟨other, found⟩ := Store.pathTable_complete member
  obtain ⟨present, same⟩ := Store.pathTable_sound found
  have walk := addressed.shaped.mem_walk
  rwa [addressed.path_inj ((walk other).mp present) ((walk id).mp member) same] at found

theorem atPath_of_path {t : Tree} (addressed : t.store.Addressed) (tabled : t.Tabled) {id : NodeId} (member : id ∈ t.nodes)
    {path : Bytes} (same : (if Bytes.endsWith path (utf8 "/") then path else path ++ utf8 "/") = t.pathOf id) :
    t.atPath? path = some id := by
  have listed := (exactly_iff addressed tabled (t.pathOf id) id).mpr ⟨member, rfl⟩
  simp only [atPath?, same, listed]

theorem find_slash (t : Tree) {path rest : Bytes} (absolute : path = 0x2f :: rest) : t.find? path = t.atPath? path := by
  subst absolute
  rfl

theorem find_braces (t : Tree) (path : Bytes) : t.find? (utf8 "&\x7b" ++ path ++ utf8 "\x7d") = t.atPath? path := by
  have lead : Bytes.dropLead? (utf8 "&\x7b") (utf8 "&\x7b" ++ path ++ utf8 "\x7d") = some (path ++ utf8 "\x7d") := rfl
  unfold find?
  rw [lead]
  dsimp only
  rw [Bytes.dropTail_append]

theorem found_of_addressed {t : Tree} (addressed : t.store.Addressed) (tabled : t.Tabled) {id : NodeId} (member : id ∈ t.nodes) :
    t.find? (t.pathOf id) = some id ∧ t.find? (utf8 "&\x7b" ++ t.pathOf id ++ utf8 "\x7d") = some id ∧
      (id ≠ Store.rootId → t.find? (t.pathOf id).dropLast = some id) := by
  have reached := (addressed.shaped.mem_walk id).mp member
  obtain ⟨front, slash⟩ := addressed.path_slash reached
  obtain ⟨rest, absolute⟩ := addressed.path_absolute reached
  have ends : Bytes.endsWith (t.pathOf id) (utf8 "/") = true := by
    rw [Bytes.endsWith_slash, pathOf, node, slash]
    exact List.getLast?_concat
  have whole := atPath_of_path addressed tabled member (by rw [if_pos ends])
  refine ⟨(find_slash t absolute).trans whole, (find_braces t _).trans whole, fun below => ?_⟩
  cases reached with
  | refl => exact absurd rfl below
  | @tail p _ above edge =>
    have named := addressed.named p id edge
    have path : t.pathOf id = (t.store.node p).path ++ (t.store.node id).name ++ utf8 "/" := addressed.pathed p id edge
    have cut : (t.pathOf id).dropLast = (t.store.node p).path ++ (t.store.node id).name := by
      rw [path]
      exact List.dropLast_concat
    obtain ⟨rest, absolute⟩ := addressed.path_absolute above
    -- The name is the last part, and it does not end in a slash.
    have unclosed : Bytes.endsWith (t.pathOf id).dropLast (utf8 "/") = false := by
      rw [Bool.eq_false_iff, ne_eq, Bytes.endsWith_slash, cut, List.getLast?_append_of_ne_nil _ named.1]
      exact fun last => not_slash_of_name named (List.mem_of_getLast? last)
    have begins : (t.pathOf id).dropLast = 0x2f :: (rest ++ (t.store.node id).name) := by
      rw [cut, absolute]
      rfl
    refine (find_slash t begins).trans (atPath_of_path addressed tabled member ?_)
    rw [if_neg (by rw [unclosed]; exact Bool.false_ne_true), cut, path]

theorem represented_of_addressed {t : Tree} (addressed : t.store.Addressed) (tabled : t.Tabled) : t.Represented where
  root := ⟨addressed.root, addressed.shaped.orphan⟩
  walked := addressed.shaped.mem_walk
  below id member apart := by
    cases (addressed.shaped.mem_walk id).mp member with
    | refl => exact absurd rfl apart
    | @tail p _ above edge => exact ⟨p, (addressed.shaped.mem_walk p).mpr above, edge⟩
  child p _ c edge := ⟨(addressed.shaped.child p c edge).2.2, addressed.pathed p c edge⟩
  siblings p _ := List.Nodup.map_on (fun c one d two same => addressed.shaped.named p c d one two same)
    (addressed.shaped.distinct p)
  childNames p _ := addressed.shaped.listed p
  byPath := exactly_iff addressed tabled
  paths := List.Nodup.map_on (fun a one b two same => addressed.path_inj ((addressed.shaped.mem_walk a).mp one)
    ((addressed.shaped.mem_walk b).mp two) same) (addressed.shaped.nodup_below _ _)
  found _ := found_of_addressed addressed tabled

theorem addressed_of_lawful {m : Merge} (lawful : m.Lawful .named) : m.store.Addressed where
  shaped := lawful.valid.shaped
  pathed := lawful.pathed
  root := (Prod.mk.inj (Prod.mk.inj lawful.placed.root).2).1
  named p c edge := by
    obtain ⟨larger, known, -⟩ := lawful.valid.shaped.child p c edge
    exact lawful.placed.named c (Nat.zero_lt_of_lt larger) known

theorem merge_addressed (name : Bytes) (roots : List Bytes) {files : List File} (bindings : Option Catalog)
    (parsed : ∀ f ∈ files, f.document = Document.parse f.text) : (merge name roots files bindings).store.Addressed := by
  have covers : ∀ f ∈ files, ∀ i ∈ f.document.items, Vocabulary.named.CoversItem i := by
    intro f member i present
    rw [parsed f member] at present
    exact Document.parse_named f.text i present
  have lawful := (Merge.roots_moves covers roots).lawful (Merge.empty_lawful _)
  exact addressed_of_lawful lawful

theorem merge_represented (name : Bytes) (roots : List Bytes) {files : List File} (bindings : Option Catalog)
    (parsed : ∀ f ∈ files, f.document = Document.parse f.text) : (merge name roots files bindings).Represented :=
  represented_of_addressed (merge_addressed name roots bindings parsed) rfl

def regrownText : Bytes := utf8 "/ \x7b a \x7b b \x7b \x7d; \x7d; \x7d; / \x7b /delete-node/ a; a \x7b c \x7b \x7d; \x7d; \x7d;"

def regrownFile : File := .ofText (.ofTable []) [] (utf8 "/a.dts") regrownText

theorem regrown_represented :
    (merge [] [regrownFile.path] [regrownFile] none).nodes.map (merge [] [regrownFile.path] [regrownFile] none).pathOf =
      [utf8 "/", utf8 "/a/", utf8 "/a/c/"] ∧
    (merge [] [regrownFile.path] [regrownFile] none).Represented :=
  ⟨by cbv, merge_represented [] [regrownFile.path] none (List.forall_mem_singleton.mpr rfl)⟩

end Tree
end DeviceTree
