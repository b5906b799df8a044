import DeviceTree.Proofs.Cells

namespace DeviceTree
open Lexer

theorem Range.Within.from_lower {inner : Range} {start lower stop : Position} (order : lower ≤ start)
    (within : inner.Within ⟨start, stop⟩) : inner.Within ⟨lower, stop⟩ :=
  ⟨order.trans within.1, within.2⟩

namespace Parser

variable {source : Bytes} {s mid after : State}

structure EndsBehind (source : Bytes) (stop : Position) (s : State) (read : Position × State) : Prop where
  onward : Onward source s read.2
  low : stop ≤ read.1
  high : read.1 ≤ read.2.place

theorem taken_ends {stop : Position} (stands : s.Stands source) (behind : stop ≤ s.place) :
    EndsBehind source stop s (s.peek.stop, s.take) :=
  ⟨stands.take, behind.trans s.place_le_stop, s.place_take.ge⟩

theorem semicolon_ends {stop : Position} (stands : s.Stands source) (behind : stop ≤ s.place) :
    EndsBehind source stop s (semicolon stop s) := by
  unfold semicolon
  split
  · exact taken_ends stands behind
  · exact ⟨(Onward.refl stands).report _ _, le_rfl, behind⟩

theorem skip_onward (stands : s.Stands source) : Onward source s (skip s) := by
  have loop : ∀ (fuel : Nat) (s : State), s.Stands source → Onward source s (skipStatement fuel s) := by
    intro fuel s stands
    fun_induction skipStatement fuel s with
    | case4 fuel s _ => exact stands.take
    | case5 fuel s _ _ _ ih => exact stands.take.trans (ih stands.take.stands)
    | _ => exact .refl stands
  exact loop s.rounds s stands

theorem skip_report_onward (onward : Onward source s after) (range : Range) (problem : Problem) :
    Onward source s (skip (after.report range problem)) :=
  (onward.report range problem).trans (skip_onward (onward.report range problem).stands)

theorem skipLine_ends (fuel : Nat) (stop : Position) (s : State) (stands : s.Stands source) (behind : stop ≤ s.place) :
    EndsBehind source stop s (skipLine fuel stop s) := by
  fun_induction skipLine fuel stop s with
  | case1 stop s => exact ⟨.refl stands, le_rfl, behind⟩
  | case2 fuel stop s => exact ⟨.refl stands, le_rfl, behind⟩
  | case3 fuel stop s => exact taken_ends stands behind
  | case4 fuel stop s _ _ _ ih =>
    have later := ih stands.take.stands (behind.trans stands.take.place)
    exact ⟨stands.take.trans later.onward, later.low, later.high⟩

theorem ended_ends {stop : Position} (stands : s.Stands source) (behind : stop ≤ s.place) :
    EndsBehind source stop s (ended stop s) := by
  unfold ended
  split
  · exact taken_ends stands behind
  · have reported := (Onward.refl stands).report (.point stop) .missingSemicolon
    have line := skipLine_ends (s.report (.point stop) .missingSemicolon).rounds stop _ reported.stands behind
    exact ⟨reported.trans line.onward, line.low, line.high⟩

end Parser

structure PropertyDecl.Sound (source : Bytes) (p : PropertyDecl) : Prop where
  values : Between p.range.start p.range.stop (p.values.map Value.range)
  arrays : ∀ v ∈ p.values, v.Sound source

def Statement.range : Statement → Range
  | .property p => p.range
  | .node head _ => head.range
  | .delete d => d.range

-- What a statement says of itself; a nested node has a name, and its own statements are left out.
def Statement.Plain (source : Bytes) : Statement → Prop
  | .property p => p.Sound source
  | .node head _ => ∃ name, head.heading = .name name ∧ IsName name
  | .delete _ => True

structure NodeDecl.Sound (source : Bytes) (n : NodeDecl) : Prop where
  statements : Between n.head.range.start n.head.range.stop (n.body.map Statement.range)
  deeper : ∀ stmt ∈ n.body, n.head.range.start < stmt.range.start
  plain : ∀ stmt ∈ n.body, stmt.Plain source

def nodesIn : List Statement → List NodeDecl
  | [] => []
  | .node head body :: rest => ⟨head, body⟩ :: (nodesIn body ++ nodesIn rest)
  | .property _ :: rest => nodesIn rest
  | .delete _ :: rest => nodesIn rest

theorem nodesIn_append (front back : List Statement) : nodesIn (front ++ back) = nodesIn front ++ nodesIn back := by
  induction front with
  | nil => simp [nodesIn]
  | cons stmt rest ih => cases stmt <;> simp [nodesIn, ih]

def SoundBelow (source : Bytes) (stmts : List Statement) : Prop :=
  (∀ stmt ∈ stmts, stmt.Plain source) ∧ ∀ n ∈ nodesIn stmts, n.Sound source

theorem SoundBelow.nil (source : Bytes) : SoundBelow source [] := ⟨List.forall_mem_nil _, by simp [nodesIn]⟩

theorem SoundBelow.append {source : Bytes} {front back : List Statement} (one : SoundBelow source front)
    (two : SoundBelow source back) :
    SoundBelow source (front ++ back) := by
  refine ⟨fun stmt member => ?_, fun n member => ?_⟩
  · exact (List.mem_append.mp member).elim (one.1 stmt) (two.1 stmt)
  · rw [nodesIn_append] at member
    exact (List.mem_append.mp member).elim (one.2 n) (two.2 n)

namespace Parser

variable {source : Bytes} {s mid after : State}

structure Titled (start : Position) (found : List Label) (name : Token) (s : State) : Prop where
  low : start ≤ declStart found name
  named : declStart found name ≤ name.start
  high : name.stop ≤ s.place

theorem Titled.within {start stop bound : Position} {found : List Label} {name : Token} (titled : Titled start found name s)
    (behind : name.stop ≤ stop) (high : stop ≤ bound) : Range.Within ⟨declStart found name, stop⟩ ⟨start, bound⟩ :=
  ⟨titled.low, titled.named.trans (name.start_le.trans behind), high⟩

theorem labels_onward (fuel : Nat) (s : State) (stands : s.Stands source) : Onward source s (labels fuel s).2 := by
  fun_induction labels fuel s with
  | case1 s => exact .refl stands
  | case2 fuel s t label more after equal ih =>
    rw [equal] at ih
    exact stands.take.trans (ih stands.take.stands)
  | case3 fuel s => exact .refl stands

theorem labels_start (fuel : Nat) (stands : s.Stands source) :
    s.ahead ≤ declStart (labels fuel s).1 (labels fuel s).2.peek ∧
      declStart (labels fuel s).1 (labels fuel s).2.peek ≤ (labels fuel s).2.peek.start := by
  have none : s.ahead ≤ declStart [] s.peek ∧ declStart [] s.peek ≤ s.peek.start := ⟨le_rfl, le_rfl⟩
  cases fuel with
  | zero => exact none
  | succ fuel =>
    rw [labels]
    dsimp only
    split
    · have later := labels_onward fuel s.take stands.take.stands
      have onto := later.place.trans (State.place_le_peek _)
      exact ⟨le_rfl, s.peek.start_le.trans (s.place_take.ge.trans onto)⟩
    · exact none

theorem labels_titled (fuel : Nat) (stands : s.Stands source) :
    Titled s.ahead (labels fuel s).1 (labels fuel s).2.peek (labels fuel s).2.take := by
  obtain ⟨low, named⟩ := labels_start fuel stands
  exact ⟨low, named, (State.place_take _).ge⟩

theorem labels_shorter (label : s.peek.kind = .label) (stands : s.Stands source) :
    (labels s.rounds s).2.cursor.rest.length < s.cursor.rest.length := by
  have shorter := s.take_shorter (by simp [label])
  have later := (labels_onward s.cursor.rest.length s.take stands.take.stands).left
  rw [State.rounds, labels]
  dsimp only
  rw [if_pos label]
  exact Nat.lt_of_le_of_lt later shorter

structure Declares (source : Bytes) (start : Position) (s : State) (stmt : Statement) (after : State) : Prop where
  onward : Onward source s after
  within : stmt.range.Within ⟨start, after.place⟩
  sound : SoundBelow source [stmt]

theorem soundBelow_property {p : PropertyDecl} (sound : p.Sound source) : SoundBelow source [.property p] := by
  refine ⟨fun stmt member => ?_, by simp [nodesIn]⟩
  cases List.mem_singleton.mp member
  exact sound

theorem soundBelow_delete (source : Bytes) (d : Delete) : SoundBelow source [.delete d] := by
  refine ⟨fun stmt member => ?_, by simp [nodesIn]⟩
  cases List.mem_singleton.mp member
  trivial

theorem property_declares {start : Position} {found : List Label} {name : Token} (stands : s.Stands source)
    (titled : Titled start found name s) :
    Declares source start s (.property (property found name s).1) (property found name s).2 := by
  have read := values_reads s.rounds name.stop s stands titled.high
  have ends := ended_ends read.onward.stands read.high
  have behind := read.spans.le.trans ends.low
  rw [property_eq]
  generalize values s.rounds name.stop s = listed at read ends behind ⊢
  generalize ended listed.2.1 listed.2.2 = closed at ends behind ⊢
  refine ⟨read.onward.trans ends.onward, titled.within behind ends.high, soundBelow_property ⟨?_, read.sound⟩⟩
  exact read.spans.widen (titled.named.trans name.start_le) ends.low

theorem bare_sound (source : Bytes) {found : List Label} {name : Token} {start stop : Position}
    (titled : Titled start found name s) (behind : name.stop ≤ stop) :
    SoundBelow source [.property (propertyDecl found name stop [])] :=
  soundBelow_property ⟨titled.named.trans (name.start_le.trans behind), List.forall_mem_nil _⟩

theorem bareProperty_declares {start : Position} {found : List Label} {name : Token} (stands : s.Stands source)
    (titled : Titled start found name s) :
    Declares source start s (.property (bareProperty found name s).1) (bareProperty found name s).2 := by
  have sound := bare_sound source titled le_rfl
  unfold bareProperty
  dsimp only
  split
  · have skipped := skip_report_onward (.refl stands) name.range .incompleteDeclaration
    exact ⟨skipped, titled.within le_rfl (titled.high.trans skipped.place), sound⟩
  · exact ⟨(Onward.refl stands).report _ _, titled.within le_rfl titled.high, sound⟩

theorem delete_within (t : Token) (stands : s.Stands source) (early : t.start ≤ s.place) :
    Onward source s (delete t s).2 ∧ ∀ d ∈ (delete t s).1, d.range.Within ⟨t.start, (delete t s).2.place⟩ := by
  have taken := stands.take
  have finish : ∀ victim : Victim, Onward source s (semicolon s.peek.stop s.take).2 ∧
      ∀ d ∈ some (Delete.mk ⟨t.start, (semicolon s.peek.stop s.take).1⟩ s.peek.range victim),
        d.range.Within ⟨t.start, (semicolon s.peek.stop s.take).2.place⟩ := by
    intro victim
    have ends := semicolon_ends taken.stands s.place_take.ge
    refine ⟨taken.trans ends.onward, ?_⟩
    intro d member
    cases member
    exact ⟨le_rfl, early.trans (s.place_le_stop.trans ends.low), ends.high⟩
  unfold delete
  dsimp only
  split
  · exact finish _
  · split
    · exact finish _
    · exact ⟨skip_report_onward taken _ _, by simp⟩
  · split
    · exact finish _
    · exact ⟨skip_report_onward taken _ _, by simp⟩
  · exact ⟨skip_report_onward (.refl stands) _ _, by simp⟩

structure ReadsStatement (source : Bytes) (s : State) (read : Option Statement × State) : Prop where
  onward : Onward source s read.2
  within : ∀ stmt ∈ read.1, stmt.range.Within ⟨s.ahead, read.2.ahead⟩
  sound : SoundBelow source read.1.toList
  shorter : s.peek.kind ≠ .eof → read.2.cursor.rest.length < s.cursor.rest.length

structure ReadsBody (source : Bytes) (s : State) (read : List Statement × Position × Bool × State) : Prop where
  onward : Onward source s read.2.2.2
  spans : Between s.ahead read.2.1 (read.1.map Statement.range)
  high : read.2.1 ≤ read.2.2.2.ahead
  sound : SoundBelow source read.1

structure ReadsNode (source : Bytes) (start : Position) (s : State) (read : NodeDecl × State) : Prop where
  onward : Onward source s read.2
  within : read.1.head.range.Within ⟨start, read.2.ahead⟩
  sound : read.1.Sound source
  below : ∀ n ∈ nodesIn read.1.body, n.Sound source

structure ReadsBlocks (source : Bytes) (fuel : Nat) : Prop where
  node : ∀ {start found name s}, State.Stands source s → Titled start found name s → 2 * s.cursor.rest.length + 1 ≤ fuel →
    ReadsNode source start s (node fuel found name s)
  body : ∀ {s}, State.Stands source s → 2 * s.cursor.rest.length + 2 ≤ fuel → ReadsBody source s (body fuel s)
  statement : ∀ {s}, State.Stands source s → 2 * s.cursor.rest.length + 1 ≤ fuel →
    ReadsStatement source s (statement fuel s)

theorem node_reads {fuel : Nat} (blocks : ReadsBlocks source fuel) {start : Position} {found : List Label} {name : Token}
    (stands : s.Stands source) (titled : Titled start found name s) (enough : 2 * s.cursor.rest.length + 1 ≤ fuel + 1) :
    ReadsNode source start s (node (fuel + 1) found name s) := by
  have early := titled.named.trans name.start_le
  rw [node]
  split
  · rename_i brace
    have shorter := s.take_shorter (by simp [brace])
    have taken := stands.take
    have read := blocks.body taken.stands (by omega)
    have low := titled.high.trans (taken.place.trans s.take.place_le_peek)
    refine ⟨taken.trans read.onward, titled.within (low.trans read.spans.le) read.high, ⟨?_, ?_, read.sound.1⟩, read.sound.2⟩
    · exact read.spans.widen (early.trans low) le_rfl
    · intro stmt member
      -- The opening brace stands between the name and the first statement.
      have brace := (early.trans titled.high).trans_lt (s.place_lt_take (by simp [brace]))
      have behind := (read.spans.within (List.mem_map_of_mem member)).1
      exact brace.trans_le (s.take.place_le_peek.trans behind)
  · have skipped := skip_report_onward (.refl stands) name.range .expectedBrace
    have high := titled.high.trans (skipped.place.trans (State.place_le_peek _))
    refine ⟨skipped, titled.within le_rfl high, ⟨early, List.forall_mem_nil _, List.forall_mem_nil _⟩, ?_⟩
    simp [nodesIn]

theorem ReadsStatement.spans {read : Option Statement × State} (reads : ReadsStatement source s read) :
    Between s.ahead read.2.ahead (read.1.toList.map Statement.range) := by
  obtain ⟨found, after⟩ := read
  cases found with
  | none => exact reads.onward.ahead
  | some stmt => exact reads.within stmt rfl

theorem body_reads {fuel : Nat} (blocks : ReadsBlocks source fuel) (stands : s.Stands source)
    (enough : 2 * s.cursor.rest.length + 2 ≤ fuel + 1) : ReadsBody source s (body (fuel + 1) s) := by
  have taken := stands.take
  rw [body]
  dsimp only
  split
  · have ends := semicolon_ends taken.stands s.place_take.ge
    exact ⟨taken.trans ends.onward, s.peek.start_le.trans ends.low, ends.high.trans (State.place_le_peek _), .nil source⟩
  · rename_i kind
    have empty : s.peek.stop = s.peek.start := by
      have none : s.peek.lexeme = [] := s.cursor.next_mark.1 kind
      rw [Token.stop, none]
      rfl
    exact ⟨(Onward.refl stands).report _ _, s.peek.start_le, empty.le, .nil source⟩
  · rename_i close ends
    have first := blocks.statement stands (by omega)
    have shorter := first.shorter ends
    have later := blocks.body first.onward.stands (by omega)
    refine ⟨first.onward.trans later.onward, ?_, later.high, first.sound.append later.sound⟩
    rw [List.map_append]
    exact first.spans.append later.spans

theorem Declares.statement {start : Position} {stmt : Statement} (declares : Declares source start s stmt after)
    (first : Onward source mid s) (low : mid.ahead ≤ start) (shorter : s.cursor.rest.length < mid.cursor.rest.length) :
    ReadsStatement source mid (some stmt, after) where
  onward := first.trans declares.onward
  within other member := by
    cases member
    have within := declares.within
    exact ⟨low.trans within.1, within.2.1, within.2.2.trans (State.place_le_peek _)⟩
  sound := declares.sound
  shorter _ := Nat.lt_of_le_of_lt declares.onward.left shorter

theorem ReadsStatement.nothing (onward : Onward source s after) (shorter : s.peek.kind ≠ .eof →
    after.cursor.rest.length < s.cursor.rest.length) : ReadsStatement source s (none, after) :=
  ⟨onward, by simp, .nil source, shorter⟩

theorem ReadsStatement.refused (stands : s.Stands source) (onward : Onward source s.take after) :
    ReadsStatement source s (none, after) :=
  .nothing (stands.take.trans onward) fun more => Nat.lt_of_le_of_lt onward.left (s.take_shorter more)

theorem declared_reads {fuel : Nat} (blocks : ReadsBlocks source fuel) {start : Position} {found : List Label} {name : Token}
    (stands : s.Stands source) (titled : Titled start found name s) (named : name.kind = .name) (proper : IsName name.text)
    (enough : 2 * s.cursor.rest.length + 1 ≤ fuel) (first : Onward source mid s) (low : mid.ahead ≤ start)
    (shorter : s.cursor.rest.length < mid.cursor.rest.length) :
    ReadsStatement source mid (declared fuel found name s) := by
  have taken := stands.take
  have later : Titled start found name s.take := ⟨titled.low, titled.named, titled.high.trans taken.place⟩
  unfold declared
  split
  · have read := blocks.node stands titled enough
    obtain ⟨-, heading⟩ := node_head fuel found name s
    refine ⟨first.trans read.onward, ?_, ⟨?_, ?_⟩, fun _ => Nat.lt_of_le_of_lt read.onward.left shorter⟩
    · intro stmt member
      cases member
      exact ⟨low.trans read.within.1, read.within.2⟩
    · intro stmt member
      cases List.mem_singleton.mp member
      refine ⟨name.text, ?_, proper⟩
      rw [heading, headingOf, named]
    · intro n member
      simp only [Option.toList, nodesIn, List.append_nil, List.mem_cons] at member
      rcases member with rfl | inner
      · exact read.sound
      · exact read.below n inner
  · have read := property_declares taken.stands later
    have whole : Declares source start s (.property (property found name s.take).1) (property found name s.take).2 :=
      ⟨taken.trans read.onward, read.within, read.sound⟩
    exact whole.statement first low shorter
  · have behind : name.stop ≤ s.peek.stop := titled.high.trans s.place_le_stop
    have read : Declares source start s (.property (propertyDecl found name s.peek.stop [])) s.take :=
      ⟨taken, titled.within behind s.place_take.ge, bare_sound source titled behind⟩
    exact read.statement first low shorter
  · exact (bareProperty_declares stands titled).statement first low shorter

theorem declaration_reads {fuel : Nat} (blocks : ReadsBlocks source fuel) (stands : s.Stands source)
    (labelled : s.peek.kind = .label ∨ s.peek.kind = .name) (enough : 2 * s.cursor.rest.length + 1 ≤ fuel + 1) :
    ReadsStatement source s (statement (fuel + 1) s) := by
  have read := labels_onward s.rounds s stands
  have titled := labels_titled s.rounds stands
  rw [statement_eq labelled]
  unfold declaration
  split
  · rename_i named
    have taken := read.stands.take
    have shorter := Nat.lt_of_lt_of_le (State.take_shorter (by simp [named])) read.left
    exact declared_reads blocks taken.stands titled named (text_name named (Cursor.next_fits _)) (by omega)
      (read.trans taken) le_rfl shorter
  · rename_i other
    have skipped := skip_report_onward read (labels s.rounds s).2.peek.range .labelWithoutName
    refine .nothing skipped fun _ => ?_
    rcases labelled with label | name
    · have first := labels_shorter label stands
      have rest := (skip_report_onward (.refl read.stands) (labels s.rounds s).2.peek.range .labelWithoutName).left
      exact Nat.lt_of_le_of_lt rest first
    · -- Without a label the name is still there.
      have same : (labels s.rounds s).2 = s := by
        rw [State.rounds, labels]
        simp [name]
      exact absurd (by rw [same]; exact name) other

theorem statement_reads {fuel : Nat} (blocks : ReadsBlocks source fuel) (stands : s.Stands source)
    (enough : 2 * s.cursor.rest.length + 1 ≤ fuel + 1) : ReadsStatement source s (statement (fuel + 1) s) := by
  by_cases labelled : s.peek.kind = .label ∨ s.peek.kind = .name
  · exact declaration_reads blocks stands labelled enough
  have taken := stands.take
  have onto : s.ahead ≤ s.take.ahead := taken.ahead
  have next := Onward.refl taken.stands
  rw [statement]
  dsimp only
  split
  · rename_i kind
    have shorter := s.take_shorter (by simp [kind])
    split
    · obtain ⟨onward, within⟩ := delete_within s.peek taken.stands (s.peek.start_le.trans s.place_take.ge)
      generalize delete s.peek s.take = read at onward within
      obtain ⟨found, after⟩ := read
      cases found with
      | none => exact .refused stands onward
      | some d =>
        have read : Declares source s.peek.start s.take (.delete d) after :=
          ⟨onward, within d rfl, soundBelow_delete source d⟩
        exact read.statement taken le_rfl shorter
    · split
      · have read := blocks.statement taken.stands (by omega)
        refine ⟨taken.trans read.onward, ?_, read.sound, fun _ => Nat.lt_of_le_of_lt read.onward.left shorter⟩
        intro stmt member
        have within := read.within stmt member
        exact ⟨onto.trans within.1, within.2⟩
      · exact .refused stands (skip_report_onward next _ _)
  · exact .refused stands (next.report _ _)
  · rename_i kind
    exact absurd (.inl kind) labelled
  · rename_i kind
    exact absurd (.inr kind) labelled
  · exact .refused stands (skip_report_onward next _ _)
  · exact .refused stands (skip_report_onward next _ _)
  · exact .refused stands (next.report _ _)

theorem blocks_read (source : Bytes) (fuel : Nat) : ReadsBlocks source fuel := by
  induction fuel with
  | zero => exact ⟨fun _ _ enough => absurd enough (by omega), fun _ enough => absurd enough (by omega),
      fun _ enough => absurd enough (by omega)⟩
  | succ fuel ih => exact ⟨node_reads ih, body_reads ih, statement_reads ih⟩

theorem single_sound (kind : s.peek.kind = .name ∨ s.peek.kind = .char) (width : Width) :
    CellArray.Sound source ⟨s.peek.range, width, [cellOfToken s.peek]⟩ := by
  refine ⟨s.peek.start_le, ⟨s.peek.stop, le_rfl, s.peek.start_le, le_rfl⟩, fun _ => .inr ?_, fun _ c member => ?_⟩
  · rintro ⟨range, b, text, value, last⟩
    simp only [List.getLast?_singleton, cellOfToken, Option.some.injEq, Cell.int.injEq] at last
    exact text_not_group kind _ last.2.1
  · cases List.mem_singleton.mp member
    exact ⟨le_rfl, s.peek.start_le, le_rfl⟩

theorem reservation_onward (count : Nat) (s : State) (stands : s.Stands source) :
    Onward source s (reservation count s).2 ∧ ∀ v ∈ (reservation count s).1, v.Sound source := by
  fun_induction reservation count s with
  | case1 s => exact ⟨.refl stands, List.forall_mem_nil _⟩
  | case2 count s t kind more after equal ih =>
    rw [equal] at ih
    obtain ⟨onward, sound⟩ := ih stands.take.stands
    exact ⟨stands.take.trans onward, List.forall_mem_cons.mpr ⟨Value.sound_array (single_sound (.inl kind) .w64), sound⟩⟩
  | case3 count s t kind a after equal more last again ih =>
    have taken := stands.take
    have early : s.peek.start ≤ s.take.last := by
      rw [State.last_take (by rw [show s.peek.kind = .langle from kind]; simp)]
      exact s.peek.start_le
    obtain ⟨read, -, whole⟩ := array_sound t .w32 taken.stands early
    have whole : (array t .w32 s.take).1.Sound source := whole
    rw [equal] at read whole
    rw [again] at ih
    obtain ⟨onward, sound⟩ := ih read.stands
    exact ⟨taken.trans (read.trans onward), List.forall_mem_cons.mpr ⟨Value.sound_array whole, sound⟩⟩
  | case4 count s t => exact ⟨.refl stands, List.forall_mem_nil _⟩

theorem includeLine_range {t : Token} {i : Include} (found : includeLine t = some i) : i.range = t.range := by
  unfold includeLine at found
  dsimp only at found
  split at found
  · cases found
  · split at found
    · split at found
      · cases found
        rfl
      · cases found
    · split at found
      · cases found
        rfl
      · cases found
    · cases found

end Parser

def Item.Sound (source : Bytes) : Item → Prop
  | .node n => n.Sound source ∧ (∀ m ∈ nodesIn n.body, m.Sound source) ∧
      ∀ name, n.head.heading = .name name → name ≠ utf8 "/" → IsName name
  | .directive d => ∀ v ∈ d.values, v.Sound source
  | _ => True

namespace Parser

variable {source : Bytes} {s after : State}

structure ReadsItem (source : Bytes) (s : State) (read : Option Item × State) : Prop where
  onward : Onward source s read.2
  within : ∀ i ∈ read.1, i.range.Within ⟨s.ahead, read.2.ahead⟩
  sound : ∀ i ∈ read.1, i.Sound source

theorem ReadsItem.nothing (onward : Onward source s after) : ReadsItem source s (none, after) :=
  ⟨onward, by simp, by simp⟩

theorem ReadsItem.one {i : Item} (onward : Onward source s after) (within : i.range.Within ⟨s.ahead, after.place⟩)
    (sound : i.Sound source) : ReadsItem source s (some i, after) where
  onward := onward
  within j member := by
    cases member
    exact ⟨within.1, within.2.1, within.2.2.trans (State.place_le_peek _)⟩
  sound j member := by
    cases member
    exact sound

theorem headed_reads (stands : s.Stands source) {found : List Label} {start : Position}
    (titled : Titled start found s.peek s.take) {first : State} (before : Onward source first s)
    (low : first.ahead ≤ start) :
    ReadsItem source first (Parser.headed found s) := by
  unfold Parser.headed
  split
  · rename_i kinds
    have taken := stands.take
    have read := (blocks_read source s.fuel).node taken.stands titled (by
      have left := taken.left
      unfold State.fuel
      omega)
    obtain ⟨-, heading⟩ := node_head s.fuel found s.peek s.take
    refine ⟨before.trans (taken.trans read.onward), ?_, ?_⟩
    · intro i member
      cases member
      exact read.within.from_lower low
    · intro i member
      cases member
      refine ⟨read.sound, read.below, fun name same other => ?_⟩
      rw [heading] at same
      simp only [List.mem_cons, List.not_mem_nil, or_false] at kinds
      rcases kinds with kind | kind | kind | kind <;> simp only [headingOf, kind] at same <;> cases same
      · exact absurd rfl other
      · exact text_name kind s.cursor.next_fits
  · exact .nothing (before.report _ _)

theorem item_reads (fuel : Nat) (stands : s.Stands source) : ReadsItem source s (item fuel s) := by
  induction fuel generalizing s with
  | zero => exact .nothing (.refl stands)
  | succ fuel ih =>
    by_cases heads : s.peek.kind ∈ [TokenKind.label, .name, .slash, .ref, .pathRef]
    · rw [item_eq heads]
      have read := labels_onward s.rounds s stands
      exact headed_reads read.stands (labels_titled s.rounds stands) read le_rfl
    have taken := stands.take
    have within : s.peek.range.Within ⟨s.ahead, s.take.place⟩ := ⟨le_rfl, s.peek_within.2⟩
    rw [item]
    dsimp only
    split
    · split
      · rename_i i found
        refine .one taken ?_ trivial
        rw [Item.range, includeLine_range found]
        exact within
      · exact .nothing (taken.report _ _)
    · rename_i kind
      split
      · have ends := semicolon_ends taken.stands within.2.2
        exact .one (taken.trans ends.onward) ⟨le_rfl, s.peek.start_le.trans ends.low, ends.high⟩ (List.forall_mem_nil _)
      · split
        · obtain ⟨onward, sound⟩ := reservation_onward 2 s.take taken.stands
          have ends := semicolon_ends onward.stands onward.stands.last
          have last : s.peek.stop ≤ (reservation 2 s.take).2.last := by
            rw [← State.last_take (by simp [kind])]
            exact onward.last
          generalize reservation 2 s.take = read at onward sound ends last ⊢
          generalize semicolon read.2.last read.2 = closed at ends ⊢
          have low : s.peek.start ≤ closed.1 := s.peek.start_le.trans (last.trans ends.low)
          exact .one (taken.trans (onward.trans ends.onward)) ⟨le_rfl, low, ends.high⟩ sound
        · split
          · unfold includeDirective
            dsimp only
            split
            · have next := taken.stands.take
              have name := s.take.peek_within
              exact .one (taken.trans next)
                ⟨le_rfl, within.2.1.trans (within.2.2.trans (name.1.trans name.2.1)), name.2.2⟩
                trivial
            · exact .nothing (taken.report _ _)
          · split
            · obtain ⟨onward, inside⟩ := delete_within s.peek taken.stands (s.peek.start_le.trans s.place_take.ge)
              generalize delete s.peek s.take = read at onward inside
              obtain ⟨found, after⟩ := read
              cases found with
              | none => exact .nothing (taken.trans onward)
              | some d => exact .one (taken.trans onward) (inside d rfl) trivial
            · split
              · have read := ih taken.stands
                refine ⟨taken.trans read.onward, fun i member => ?_, read.sound⟩
                exact ⟨taken.ahead.trans (read.within i member).1, (read.within i member).2⟩
              · exact .nothing (skip_report_onward taken _ _)
    case h_8 => exact .nothing (taken.report _ _)
    case h_9 => exact .nothing (taken.report _ _)
    all_goals
      rename_i kind
      exact absurd (by simp [kind]) heads

theorem ReadsItem.spans {read : Option Item × State} (reads : ReadsItem source s read) :
    Between s.ahead read.2.ahead (read.1.toList.map Item.range) := by
  obtain ⟨found, after⟩ := read
  cases found with
  | none => exact reads.onward.ahead
  | some i => exact reads.within i rfl

theorem items_read (fuel : Nat) (s : State) (stands : s.Stands source) :
    Between s.ahead (items fuel s).2.ahead ((items fuel s).1.map Item.range) ∧
      ∀ i ∈ (items fuel s).1, i.Sound source := by
  fun_induction items fuel s with
  | case1 s => exact ⟨le_rfl, List.forall_mem_nil _⟩
  | case2 fuel s => exact ⟨le_rfl, List.forall_mem_nil _⟩
  | case3 fuel s _ found after equal more last again ih =>
    have first := item_reads s.rounds stands
    rw [equal] at first
    rw [again] at ih
    obtain ⟨spans, sound⟩ := ih first.onward.stands
    refine ⟨?_, fun i member => ?_⟩
    · rw [List.map_append]
      exact first.spans.append spans
    · rcases List.mem_append.mp member with one | other
      · exact first.sound i (Option.mem_toList.mp one)
      · exact sound i other

end Parser

theorem Document.parse_sound (source : Bytes) :
    (∃ start stop, Between start stop ((parse source).items.map Item.range)) ∧
      ∀ i ∈ (parse source).items, i.Sound source := by
  obtain ⟨spans, sound⟩ := Parser.items_read (Parser.State.start source).rounds _ (Parser.State.stands_start source)
  exact ⟨⟨_, _, spans⟩, sound⟩

end DeviceTree
