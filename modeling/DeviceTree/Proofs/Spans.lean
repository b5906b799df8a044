import DeviceTree.Proofs.Declarations

namespace DeviceTree

-- Spans that stand in the order of the source, apart from each other.
def InOrder (spans : List Range) : Prop :=
  (∀ r ∈ spans, r.start ≤ r.stop) ∧ spans.Pairwise fun a b => a.stop ≤ b.start

theorem Between.inOrder {start stop : Position} {spans : List Range} (between : Between start stop spans) :
    InOrder spans :=
  ⟨fun _ member => (between.within member).2.1, between.pairwise⟩

namespace Document

def nodes (d : Document) : List NodeDecl :=
  d.items.flatMap fun
    | .node n => n :: nodesIn n.body
    | _ => []

def properties (d : Document) : List PropertyDecl := d.nodes.flatMap NodeDecl.properties

def values (d : Document) : List Value :=
  (d.items.flatMap fun
    | .directive directive => directive.values
    | _ => []) ++ d.properties.flatMap (·.values)

def arrays (d : Document) : List CellArray := d.values.filterMap Value.array?

-- Everything lies where it belongs, the cells of an array apart, which are only in their order.
structure Arranged (d : Document) : Prop where
  items : InOrder (d.items.map Item.range)
  statements : ∀ n ∈ d.nodes, InOrder (n.body.map Statement.range) ∧ ∀ stmt ∈ n.body, stmt.range.Within n.head.range
  values : ∀ p ∈ d.properties, InOrder (p.values.map Value.range) ∧ ∀ v ∈ p.values, v.range.Within p.range
  cells : ∀ a ∈ d.arrays, InOrder (a.cells.map Cell.range)

structure SpansNest (d : Document) : Prop extends Arranged d where
  inside : ∀ a ∈ d.arrays, ∀ c ∈ a.cells, c.range.Within a.range

theorem nodes_sound (source : Bytes) : ∀ n ∈ (parse source).nodes, n.Sound source := by
  intro n member
  obtain ⟨item, present, here⟩ := List.mem_flatMap.mp member
  have sound := (parse_sound source).2 item present
  rcases item with i | directive | d | decl
  · cases here
  · cases here
  · cases here
  · rcases List.mem_cons.mp here with rfl | below
    · exact sound.1
    · exact sound.2.1 n below

theorem properties_sound (source : Bytes) : ∀ p ∈ (parse source).properties, p.Sound source := by
  intro p member
  obtain ⟨n, node, here⟩ := List.mem_flatMap.mp member
  obtain ⟨stmt, present, equal⟩ := List.mem_filterMap.mp here
  have plain := (nodes_sound source n node).plain stmt present
  cases stmt with
  | property decl =>
    cases equal
    exact plain
  | node head body => cases equal
  | delete d => cases equal

theorem arrays_sound (source : Bytes) : ∀ a ∈ (parse source).arrays, a.Sound source := by
  intro a member
  obtain ⟨v, value, array⟩ := List.mem_filterMap.mp member
  rcases List.mem_append.mp value with directive | property
  · obtain ⟨item, present, here⟩ := List.mem_flatMap.mp directive
    have sound := (parse_sound source).2 item present
    rcases item with i | directive | d | decl
    · cases here
    · exact sound v here a array
    · cases here
    · cases here
  · obtain ⟨p, present, here⟩ := List.mem_flatMap.mp property
    exact (properties_sound source p present).arrays v here a array

theorem parse_arranged (source : Bytes) : (parse source).Arranged where
  items := by
    obtain ⟨⟨start, stop, spans⟩, -⟩ := parse_sound source
    exact spans.inOrder
  statements n member := by
    have spans := (nodes_sound source n member).statements
    exact ⟨spans.inOrder, fun stmt present => spans.within (List.mem_map_of_mem present)⟩
  values p member := by
    have spans := (properties_sound source p member).values
    exact ⟨spans.inOrder, fun v present => spans.within (List.mem_map_of_mem present)⟩
  cells a member := by
    obtain ⟨stop, spans⟩ := (arrays_sound source a member).cells
    exact spans.inOrder

-- The spans of a source nest exactly if each of its arrays ends right behind a `>` or else in no group.
theorem spansNest_iff (source : Bytes) : (parse source).Arranged ∧ ((parse source).SpansNest ↔
    ∀ a ∈ (parse source).arrays, Behind source 0x3e a.range.stop ∨ ¬ a.EndsInGroup) := by
  refine ⟨parse_arranged source, fun nest a member => ?_, fun closed => ⟨parse_arranged source, fun a member => ?_⟩⟩
  · exact (arrays_sound source a member).inside.mp (nest.inside a member)
  · exact (arrays_sound source a member).inside.mpr (closed a member)

def openText : Bytes := utf8 "/ \x7b p = <(1 + 2); \x7d;"

theorem openText_sticks_out :
    (parse openText).arrays.map (fun a => (a.range, a.cells.map Cell.range)) =
      [(⟨⟨1, 9⟩, ⟨1, 11⟩⟩, [⟨⟨1, 10⟩, ⟨1, 17⟩⟩])] ∧
    ¬ (parse openText).SpansNest := by
  have out : ∃ a ∈ (parse openText).arrays, ∃ c ∈ a.cells, a.range.stop < c.range.stop := by decide +kernel
  refine ⟨by cbv, fun nest => ?_⟩
  obtain ⟨a, array, c, cell, beyond⟩ := out
  exact absurd (nest.inside a array c cell).2.2 (not_le.mpr beyond)

end Document
end DeviceTree
