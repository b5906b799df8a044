import DeviceTree.Proofs.Spans
import DeviceTree.Proofs.Spelling

namespace DeviceTree
open Lexer

-- Of a node its heading; the statements inside are made by themselves.
inductive Statement.Made : Statement → Prop where
  | property {p : PropertyDecl} (fuel : Nat) (stop : Position) (s : Parser.State)
      (values : p.values = (Parser.values fuel stop s).1) : Made (.property p)
  | node {head : NodeHead} {body : List Statement} (s : Parser.State)
      (heading : head.heading = Parser.headingOf s.peek) : Made (.node head body)
  | delete {d : Delete} (t : Token) (s : Parser.State) (found : (Parser.delete t s).1 = some d) : Made (.delete d)

def MadeBelow (stmts : List Statement) : Prop := ∀ stmt ∈ statementsIn stmts, stmt.Made

inductive Item.Made : Item → Prop where
  | included (i : Include) : Made (.include i)
  | directive {d : Directive} (count : Nat) (s : Parser.State) (values : d.values = (Parser.reservation count s).1) :
      Made (.directive d)
  | delete {d : Delete} (t : Token) (s : Parser.State) (found : (Parser.delete t s).1 = some d) : Made (.delete d)
  | node {n : NodeDecl} (s : Parser.State) (heading : n.head.heading = Parser.headingOf s.peek)
      (below : MadeBelow n.body) : Made (.node n)

theorem MadeBelow.nil : MadeBelow [] := by
  simp [MadeBelow, statementsIn]

theorem MadeBelow.append {front back : List Statement} (one : MadeBelow front) (two : MadeBelow back) :
    MadeBelow (front ++ back) := by
  rw [MadeBelow, statementsIn_append]
  exact List.forall_mem_append.mpr ⟨one, two⟩

theorem MadeBelow.property {p : PropertyDecl} (made : (Statement.property p).Made) : MadeBelow [.property p] := by
  simpa [MadeBelow, statementsIn] using made

theorem MadeBelow.delete {found : Option Delete} (made : ∀ d, found = some d → (Statement.delete d).Made) :
    MadeBelow (found.map Statement.delete).toList := by
  cases found with
  | none => exact .nil
  | some d => simpa [MadeBelow, statementsIn] using made d rfl

theorem MadeBelow.node {head : NodeHead} {body : List Statement} (made : (Statement.node head body).Made)
    (below : MadeBelow body) : MadeBelow [.node head body] := by
  simpa [MadeBelow, statementsIn] using ⟨made, below⟩

namespace Parser

structure MadeBlocks (fuel : Nat) : Prop where
  node : ∀ found name s, MadeBelow (node fuel found name s).1.body
  body : ∀ s, MadeBelow (body fuel s).1
  statement : ∀ s, MadeBelow (statement fuel s).1.toList

theorem nodeBody_made {fuel : Nat} (blocks : MadeBlocks fuel) (found : List Label) (name : Token) (s : State) :
    MadeBelow (node (fuel + 1) found name s).1.body := by
  rw [node]
  split
  · exact blocks.body s.take
  · exact .nil

theorem body_made {fuel : Nat} (blocks : MadeBlocks fuel) (s : State) : MadeBelow (body (fuel + 1) s).1 := by
  rw [body]
  dsimp only
  split
  · exact .nil
  · exact .nil
  · exact (blocks.statement s).append (blocks.body _)

theorem declared_made {fuel : Nat} (blocks : MadeBlocks fuel) (found : List Label) (s : State) :
    MadeBelow (declared fuel found s.peek s.take).1.toList := by
  unfold declared
  split
  · exact .node (.node s (node_head fuel found s.peek s.take).2) (blocks.node found s.peek s.take)
  · rw [property_eq]
    exact .property (.property _ _ _ rfl)
  · exact .property (.property 0 s.place s rfl)
  · exact .property (.property 0 s.place s rfl)

theorem statement_made {fuel : Nat} (blocks : MadeBlocks fuel) (s : State) :
    MadeBelow (statement (fuel + 1) s).1.toList := by
  by_cases labelled : s.peek.kind = .label ∨ s.peek.kind = .name
  · rw [statement_eq labelled]
    unfold declaration
    split
    · exact declared_made blocks _ _
    · exact .nil
  rw [statement]
  dsimp only
  split
  · split
    · exact .delete fun d found => .delete s.peek s.take found
    · split
      · exact blocks.statement s.take
      · exact .nil
  case h_3 kind => exact absurd (.inl kind) labelled
  case h_4 kind => exact absurd (.inr kind) labelled
  all_goals exact .nil

theorem blocks_made (fuel : Nat) : MadeBlocks fuel := by
  induction fuel with
  | zero => exact ⟨fun _ _ _ => .nil, fun _ => .nil, fun _ => .nil⟩
  | succ fuel ih => exact ⟨nodeBody_made ih, body_made ih, statement_made ih⟩

theorem item_made (fuel : Nat) (s : State) : ∀ i ∈ (item fuel s).1, i.Made := by
  induction fuel generalizing s with
  | zero => simp [item]
  | succ fuel ih =>
    by_cases heads : s.peek.kind ∈ [TokenKind.label, .name, .slash, .ref, .pathRef]
    · rw [item_eq heads]
      generalize (labels s.rounds s) = result
      obtain ⟨found, after⟩ := result
      unfold headed
      split
      · intro i member
        cases member
        exact .node after (node_head after.fuel found after.peek after.take).2
          ((blocks_made _).node found after.peek after.take)
      · simp
    rw [item]
    dsimp only
    split
    · split
      · intro i member
        cases member
        exact .included _
      · simp
    · split
      · intro i member
        cases member
        exact .directive 0 s rfl
      · split
        · intro i member
          cases member
          exact .directive 2 s.take rfl
        · split
          · unfold includeDirective
            dsimp only
            split
            · intro i member
              cases member
              exact .included _
            · simp
          · split
            · intro i member
              obtain ⟨d, found, rfl⟩ := Option.map_eq_some_iff.mp member
              exact .delete s.peek s.take found
            · split
              · exact ih s.take
              · simp
    case h_8 => simp
    case h_9 => simp
    all_goals
      rename_i kind
      exact absurd (by simp [kind]) heads

theorem items_made (fuel : Nat) (s : State) : ∀ i ∈ (items fuel s).1, i.Made := by
  fun_induction items fuel s with
  | case3 fuel s _ found after equal more last again ih =>
    have first := item_made s.rounds s
    rw [equal] at first
    rw [again] at ih
    exact fun i member => (List.mem_append.mp member).elim (fun one => first i (Option.mem_toList.mp one)) (ih i)
  | _ => exact List.forall_mem_nil _

end Parser

theorem mem_statementsIn {stmt : Statement} {stmts : List Statement} (member : stmt ∈ stmts) :
    stmt ∈ statementsIn stmts := by
  obtain ⟨front, back, rfl⟩ := List.append_of_mem member
  rw [statementsIn_append]
  exact List.mem_append_right _ (by cases stmt <;> simp [statementsIn])

theorem mem_statementsIn_nested {n : NodeDecl} {stmt : Statement} {stmts : List Statement} (nested : n ∈ nodesIn stmts)
    (member : stmt ∈ n.body) : stmt ∈ statementsIn stmts := by
  induction stmts using nodesIn.induct with
  | case1 => simp [nodesIn] at nested
  | case2 head body rest ihBody ihRest =>
    rw [nodesIn, List.mem_cons, List.mem_append] at nested
    rw [statementsIn, List.mem_cons, List.mem_append]
    rcases nested with rfl | below | later
    · exact .inr (.inl (mem_statementsIn member))
    · exact .inr (.inl (ihBody below))
    · exact .inr (.inr (ihRest later))
  | case3 p rest ih =>
    rw [nodesIn] at nested
    rw [statementsIn]
    exact List.mem_cons_of_mem _ (ih nested)
  | case4 d rest ih =>
    rw [nodesIn] at nested
    rw [statementsIn]
    exact List.mem_cons_of_mem _ (ih nested)

namespace Document

theorem parse_made (source : Bytes) : ∀ i ∈ (parse source).items, i.Made :=
  Parser.items_made (Parser.State.start source).rounds (.start source)

theorem statements_made {source : Bytes} {n : NodeDecl} (declared : n ∈ (parse source).nodes) :
    ∀ stmt ∈ n.body, stmt.Made := by
  obtain ⟨item, present, here⟩ := List.mem_flatMap.mp declared
  cases parse_made source item present with
  | included i => cases here
  | directive count s values => cases here
  | delete t s found => cases here
  | node s heading below =>
    rcases List.mem_cons.mp here with rfl | nested
    · exact fun stmt member => below stmt (mem_statementsIn member)
    · exact fun stmt member => below stmt (mem_statementsIn_nested nested member)

theorem properties_made (source : Bytes) : ∀ p ∈ (parse source).properties, (Statement.property p).Made := by
  intro p member
  obtain ⟨n, declared, here⟩ := List.mem_flatMap.mp member
  obtain ⟨stmt, present, equal⟩ := List.mem_filterMap.mp here
  cases stmt with
  | property decl =>
    cases equal
    exact statements_made declared _ present
  | node head body => cases equal
  | delete d => cases equal

end Document
end DeviceTree
