import DeviceTree.Proofs.Origins
import DeviceTree.Tree.Reference

namespace DeviceTree
open Lexer

def Victim.ref? : Victim → Option Ref
  | .target r => some r
  | _ => none

def Statement.refs : Statement → List Ref
  | .property p => p.values.flatMap Tree.refsOf
  | .node head _ => head.heading.ref?.toList
  | .delete d => d.victim.ref?.toList

def Item.refs : Item → List Ref
  | .include _ => []
  | .directive d => d.values.flatMap Tree.refsOf
  | .delete d => d.victim.ref?.toList
  | .node n => n.head.heading.ref?.toList ++ (statementsIn n.body).flatMap Statement.refs

def Document.refs (d : Document) : List Ref := d.items.flatMap Item.refs

def Named (refs : List Ref) : Prop := ∀ r ∈ refs, r.target.Spelled

theorem Named.nil : Named [] := List.forall_mem_nil _

theorem Named.append {front back : List Ref} (one : Named front) (two : Named back) : Named (front ++ back) :=
  fun r member => (List.mem_append.mp member).elim (one r) (two r)

theorem Named.flatMap {α : Type} {refs : α → List Ref} {xs : List α} (each : ∀ x ∈ xs, Named (refs x)) :
    Named (xs.flatMap refs) := by
  intro r member
  obtain ⟨x, present, inside⟩ := List.mem_flatMap.mp member
  exact each x present r inside

theorem named_array {a : CellArray} : Named (Tree.refsOf (.array a)) ↔ ∀ r, Cell.ref r ∈ a.cells → r.target.Spelled := by
  have among : ∀ r, r ∈ Tree.refsOf (.array a) ↔ Cell.ref r ∈ a.cells := by
    intro r
    rw [Tree.refsOf, List.mem_filterMap]
    constructor
    · rintro ⟨c, present, same⟩
      cases c <;> cases same
      exact present
    · exact fun present => ⟨.ref r, present, rfl⟩
  simp only [Named, among]

namespace Parser

variable {s : State}

theorem peek_named (kind : s.peek.kind = .ref ∨ s.peek.kind = .pathRef) : (refOfToken s.peek).target.Spelled :=
  refOfToken_spelled kind s.cursor.next_fits

theorem cells_named (fuel : Nat) (s : State) : ∀ r, Cell.ref r ∈ (cells fuel s).1 → r.target.Spelled := by
  fun_induction cells fuel s with
  | case3 fuel s t kind more rest equal ih =>
    rw [equal] at ih
    exact fun r member => ih r ((List.mem_cons.mp member).resolve_left (by simp [cellOfToken]))
  | case4 fuel s t kind more rest equal ih =>
    rw [equal] at ih
    exact fun r member => ih r ((List.mem_cons.mp member).resolve_left (by simp [cellOfToken]))
  | case5 fuel s t kind more rest equal ih =>
    rw [equal] at ih
    intro r member
    rcases List.mem_cons.mp member with same | later
    · cases same
      exact peek_named (.inl kind)
    · exact ih r later
  | case6 fuel s t kind more rest equal ih =>
    rw [equal] at ih
    intro r member
    rcases List.mem_cons.mp member with same | later
    · cases same
      exact peek_named (.inr kind)
    · exact ih r later
  | case7 fuel s t kind opened group text range after closed more rest equal ih =>
    rw [equal] at ih
    exact fun r member => ih r ((List.mem_cons.mp member).resolve_left (by simp))
  | case8 fuel s t kind opened group text range after open_ more rest equal ih =>
    rw [equal] at ih
    exact fun r member => ih r ((List.mem_cons.mp member).resolve_left (by simp))
  | _ => simp

theorem array_named (t : Token) (width : Width) (s : State) :
    ∀ r, Cell.ref r ∈ (array t width s).1.cells → r.target.Spelled :=
  cells_named s.rounds s

theorem wideArray_named (t : Token) (s : State) : ∀ v ∈ (wideArray t s).1, Named (Tree.refsOf v) := by
  rw [wideArray_eq]
  by_cases opens : (chosenWidth s).2.peek.kind = .langle
  · rw [sizedArray_opened opens]
    intro v member
    cases member
    rw [named_array]
    dsimp only
    exact array_named (chosenWidth s).2.peek (chosenWidth s).1 (chosenWidth s).2.take
  · simp [sizedArray_missing opens]

theorem value_named (s : State) : ∀ v ∈ (value s).1, Named (Tree.refsOf v) := by
  unfold value
  dsimp only
  split
  · intro v member
    cases member
    exact .nil
  · intro v member
    cases member
    exact named_array.mpr (array_named s.peek .w32 s.take)
  · intro v member
    cases member
    exact .nil
  · rename_i kind
    intro v member
    cases member
    exact List.forall_mem_singleton.mpr (peek_named (.inl kind))
  · rename_i kind
    intro v member
    cases member
    exact List.forall_mem_singleton.mpr (peek_named (.inr kind))
  · split
    · exact wideArray_named _ _
    · simp
  · split
    · intro v member
      cases member
      exact .nil
    · simp
  · simp

theorem values_named (fuel : Nat) (stop : Position) (s : State) :
    ∀ v ∈ (values fuel stop s).1, Named (Tree.refsOf v) := by
  fun_induction values fuel stop s with
  | case3 fuel stop s v after equal comma more rest again ih =>
    have first := value_named s
    rw [equal] at first
    rw [again] at ih
    exact List.forall_mem_cons.mpr ⟨first v rfl, ih⟩
  | case4 fuel stop s v after equal last =>
    have first := value_named s
    rw [equal] at first
    exact List.forall_mem_singleton.mpr (first v rfl)
  | _ => exact List.forall_mem_nil _

theorem heading_named (s : State) : Named (headingOf s.peek).ref?.toList := by
  unfold headingOf
  split
  · exact .nil
  · rename_i kind
    exact List.forall_mem_singleton.mpr (peek_named (.inl kind))
  · rename_i kind
    exact List.forall_mem_singleton.mpr (peek_named (.inr kind))
  · exact .nil

theorem delete_named (t : Token) (s : State) : ∀ d ∈ (delete t s).1, Named d.victim.ref?.toList := by
  unfold delete
  dsimp only
  split
  · intro d member
    cases member
    split <;> exact .nil
  · rename_i kind
    split
    · intro d member
      cases member
      exact List.forall_mem_singleton.mpr (peek_named (.inl kind))
    · simp
  · rename_i kind
    split
    · intro d member
      cases member
      exact List.forall_mem_singleton.mpr (peek_named (.inr kind))
    · simp
  · simp

theorem reservation_named (count : Nat) (s : State) : ∀ v ∈ (reservation count s).1, Named (Tree.refsOf v) := by
  fun_induction reservation count s with
  | case2 count s t kind more after equal ih =>
    rw [equal] at ih
    exact List.forall_mem_cons.mpr ⟨.nil, ih⟩
  | case3 count s t kind a after equal more last again ih =>
    have cells := array_named t .w32 s.take
    rw [equal] at cells
    rw [again] at ih
    exact List.forall_mem_cons.mpr ⟨named_array.mpr cells, ih⟩
  | _ => exact List.forall_mem_nil _

end Parser

theorem Statement.Made.named {stmt : Statement} (made : stmt.Made) : Named stmt.refs := by
  cases made with
  | property fuel stop s values =>
    rw [refs, values]
    exact .flatMap (Parser.values_named fuel stop s)
  | node s heading =>
    rw [refs, heading]
    exact Parser.heading_named s
  | delete t s found => exact Parser.delete_named t s _ found

theorem Item.Made.named {i : Item} (made : i.Made) : Named i.refs := by
  cases made with
  | included i => exact .nil
  | directive count s values =>
    rw [refs, values]
    exact .flatMap (Parser.reservation_named count s)
  | delete t s found => exact Parser.delete_named t s _ found
  | node s heading below =>
    rw [refs, heading]
    exact (Parser.heading_named s).append (.flatMap fun stmt member => (below stmt member).named)

theorem Document.parse_named_refs (source : Bytes) : ∀ r ∈ (parse source).refs, r.target.Spelled :=
  Named.flatMap fun i member => (parse_made source i member).named

end DeviceTree
