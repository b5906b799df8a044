import DeviceTree.Proofs.Nesting
import DeviceTree.Proofs.Taking

namespace DeviceTree

def bracesOf (ts : List Token) : List Token := ts.filter Token.isBrace

theorem bracesOf_append (front back : List Token) : bracesOf (front ++ back) = bracesOf front ++ bracesOf back :=
  List.filter_append _ _

def tokensOf (es : List Taken) : List Token := es.map Taken.token

theorem tokensOf_append (front back : List Taken) : tokensOf (front ++ back) = tokensOf front ++ tokensOf back :=
  List.map_append

-- A token right behind the directive that may stand before any statement.
def Excused (ts : List Token) (t : Token) : Prop :=
  ∃ directive : Token, directive.kind = .directive ∧ directive.text = utf8 "/omit-if-no-ref/" ∧ [directive, t] <:+: ts

theorem Excused.imp {ts us : List Token} (part : ts <:+: us) (t : Token) (excused : Excused ts t) : Excused us t := by
  obtain ⟨directive, kind, text, behind⟩ := excused
  exact ⟨directive, kind, text, behind.trans part⟩

theorem Weave.pass {excused : Token → Prop} {top : Bool} {low high : Position} {t : Token} {ts : List Token}
    (order : low ≤ t.start) (proper : t.start < t.stop) (kind : t.kind = .rbrace → top = true)
    (rest : Weave excused top t.stop [] (bracesOf ts) high) : Weave excused top low [] (bracesOf (t :: ts)) high := by
  by_cases brace : t.isBrace = true
  · rw [bracesOf, List.filter_cons_of_pos brace]
    exact .stray order proper (fun close => .inl (kind close)) rest
  · rw [bracesOf, List.filter_cons_of_neg brace]
    exact rest.from_lower (order.trans proper.le)

theorem Cursor.Takes.weave {c stop : Cursor} {es : List Taken} {excused : Token → Prop} {top : Bool}
    (takes : c.Takes es stop) (lone : top = true ∨ ∀ e ∈ es, e.token.kind ≠ .rbrace) :
    Weave excused top c.position [] (bracesOf (tokensOf es)) stop.position := by
  induction takes with
  | done => exact .done le_rfl
  | @token c stop es more _ ih =>
    rw [List.forall_mem_cons, or_and_left] at lone
    obtain ⟨order, place⟩ := c.next_position
    exact .pass order (Cursor.next_proper more) (fun close => lone.1.resolve_right (absurd close))
      ((ih lone.2).from_lower place.ge)
  | @group c stop es opens _ ih =>
    rw [List.forall_mem_cons, or_and_left] at lone
    obtain ⟨order, place⟩ := c.next_position
    exact .pass order (Cursor.next_proper (by rw [opens]; decide)) (by simp [opens])
      ((ih lone.2).from_lower (place.ge.trans (Cursor.le_pastGroup _)))
  | @idle c stop es _ _ ih =>
    obtain ⟨order, place⟩ := c.next_position
    exact (ih lone).from_lower (order.trans (c.next.1.start_le.trans place.ge))

def nodesOf (stmts : List Statement) : List NodeDecl :=
  stmts.filterMap fun
    | .node head body => some ⟨head, body⟩
    | _ => none

theorem nodesOf_append (front back : List Statement) : nodesOf (front ++ back) = nodesOf front ++ nodesOf back :=
  List.filterMap_append

namespace Parser

variable {source : Bytes} {s mid after : State} {top : Bool} {nodes more : List NodeDecl} {gs hs : List Position}

structure Lays (top : Bool) (s : State) (nodes : List NodeDecl) (gs : List Position) (after : State) : Prop where
  taken : ∃ es, s.cursor.Takes es after.cursor ∧ marks es = gs ∧
    Weave (Excused (tokensOf es)) top s.place nodes (bracesOf (tokensOf es)) after.place

theorem Draws.lays (draws : Draws s gs after) : Lays top s [] gs after := by
  obtain ⟨es, takes, same, plain⟩ := draws
  exact ⟨es, takes, same, takes.weave (.inr plain)⟩

theorem Lays.trans (one : Lays top s nodes gs mid) (two : Lays top mid more hs after) :
    Lays top s (nodes ++ more) (gs ++ hs) after := by
  obtain ⟨es, first, rfl, weave⟩ := one.taken
  obtain ⟨fs, second, rfl, further⟩ := two.taken
  refine ⟨es ++ fs, first.append second, by simp [marks], ?_⟩
  rw [tokensOf_append, bracesOf_append]
  exact (weave.imp (Excused.imp (List.prefix_append _ _).isInfix)).append
    (further.imp (Excused.imp (List.suffix_append _ _).isInfix))

theorem Lays.before (one : Draws s [] mid) (lays : Lays top mid nodes gs after) : Lays top s nodes gs after :=
  one.lays.trans lays

-- A node that is left open stands at the end of the source, so nothing can follow it.
structure LaysStatement (s : State) (read : Option Statement × State) : Prop where
  lays : Lays false s (nodesOf read.1.toList) (groupsIn read.1.toList) read.2
  left : ∀ m ∈ nodesOf read.1.toList, m.head.closed = false → read.2.peek.kind = .eof

structure LaysClosed (s : State) (stmts : List Statement) (stop : Position) (after : State) : Prop where
  taken : ∃ es inner closing, s.cursor.Takes es after.cursor ∧ marks es = groupsIn stmts ∧
    bracesOf (tokensOf es) = inner ++ [closing] ∧ closing.Is .rbrace ∧
    Weave (Excused (tokensOf es)) false s.place (nodesOf stmts) inner closing.start ∧ closing.stop ≤ stop
  high : stop ≤ after.place
  shut : ∀ m ∈ nodesOf stmts, m.head.closed = true

structure LaysOpen (s : State) (stmts : List Statement) (after : State) : Prop where
  lays : Lays false s (nodesOf stmts) (groupsIn stmts) after
  ends : after.peek.kind = .eof

structure LaysBody (s : State) (read : List Statement × Position × Bool × State) : Prop where
  closed : read.2.2.1 = true → LaysClosed s read.1 read.2.1 read.2.2.2
  left : read.2.2.1 = false → LaysOpen s read.1 read.2.2.2

structure LaysNode (s : State) (read : NodeDecl × State) : Prop where
  lays : ∀ top, Lays top s [read.1] (groupsIn read.1.body) read.2
  left : s.peek.kind = .lbrace → read.1.head.closed = false → read.2.peek.kind = .eof

structure LaysBlocks (source : Bytes) (fuel : Nat) : Prop where
  node : ∀ {found name s}, State.Stands source s → s.place = name.stop → 2 * s.cursor.rest.length + 1 ≤ fuel →
    LaysNode s (node fuel found name s)
  body : ∀ {s}, State.Stands source s → 2 * s.cursor.rest.length + 2 ≤ fuel → LaysBody s (body fuel s)
  statement : ∀ {s}, State.Stands source s → s.peek.kind ≠ .rbrace → 2 * s.cursor.rest.length + 1 ≤ fuel →
    LaysStatement s (statement fuel s)

theorem State.next_is {kind : TokenKind} (seen : s.peek.kind = kind) (more : kind ≠ .eof) : s.peek.Is kind :=
  ⟨seen, Cursor.next_proper fun ends => more (seen.symm.trans ends)⟩

theorem State.takes_next {kind : TokenKind} (seen : s.peek.kind = kind) (more : kind ≠ .eof) {es : List Taken}
    (takes : s.take.cursor.Takes es after.cursor) : s.cursor.Takes (⟨s.peek, false⟩ :: es) after.cursor :=
  .token (fun ends => more (seen.symm.trans ends)) takes

theorem Excused.cons (t : Token) (es : List Taken) (u : Token) (excused : Excused (tokensOf es) u) :
    Excused (tokensOf (⟨t, false⟩ :: es)) u := excused.imp (List.suffix_cons _ _).isInfix u

theorem node_lays {fuel : Nat} (blocks : LaysBlocks source fuel) {found : List Label} {name : Token}
    (stands : s.Stands source) (place : s.place = name.stop) (enough : 2 * s.cursor.rest.length + 1 ≤ fuel + 1) :
    LaysNode s (node (fuel + 1) found name s) := by
  rw [node]
  split
  · rename_i brace
    have shorter := s.take_shorter (by simp [brace])
    have read := blocks.body stands.take.stands (by omega)
    have opens := State.next_is brace (by decide)
    have first : ∀ es, bracesOf (tokensOf (⟨s.peek, false⟩ :: es)) = s.peek :: bracesOf (tokensOf es) :=
      fun es => List.filter_cons_of_pos (by simp [Token.isBrace, brace])
    generalize body fuel s.take = result at read
    obtain ⟨stmts, stop, closed, after⟩ := result
    dsimp only at read ⊢
    cases closed with
    | true =>
      obtain ⟨⟨es, inner, closing, takes, same, braces, closes, weave, low⟩, high, shut⟩ := read.closed rfl
      have taken := State.takes_next brace (by decide) takes
      refine ⟨fun top => ⟨⟨s.peek, false⟩ :: es, taken, same, ?_⟩, fun _ left => Bool.noConfusion left⟩
      have shell : Shell s.place ⟨⟨⟨declStart found name, stop⟩, name.range, found, headingOf name, true⟩, stmts⟩ s.peek
          closing := ⟨rfl, place.le, place.ge.trans s.place_le_peek, opens, closes, low⟩
      rw [s.place_take] at weave
      rw [first, braces]
      exact .closed shell (weave.imp (Excused.cons _ es)) shut (.done high)
    | false =>
      obtain ⟨⟨es, takes, same, weave⟩, ends⟩ := read.left rfl
      have taken := State.takes_next brace (by decide) takes
      refine ⟨fun top => ⟨⟨s.peek, false⟩ :: es, taken, same, ?_⟩, fun _ _ => ends⟩
      have lone : s.peek.kind = .rbrace → false = true ∨ Excused (tokensOf (⟨s.peek, false⟩ :: es)) s.peek :=
        fun close => absurd (close.symm.trans brace) (by decide)
      rw [s.place_take] at weave
      rw [first, ← List.append_nil (s.peek :: _)]
      exact .unclosed rfl (.stray s.place_le_peek opens.proper lone (weave.imp (Excused.cons _ es))) (.done le_rfl)
  · rename_i other
    have draws : Draws s [] (skip (s.report name.range .expectedBrace)) := skip_draws (s.report name.range .expectedBrace)
    obtain ⟨es, takes, same, plain⟩ := draws
    refine ⟨fun top => ⟨es, takes, ?_, ?_⟩, fun brace => absurd brace other⟩
    · simpa [groupsIn] using same
    · rw [← List.append_nil (bracesOf _)]
      exact .unclosed rfl (takes.weave (.inr plain)) (.done le_rfl)

theorem semicolon_taken (stop : Position) (s : State) : ∃ es, s.cursor.Takes es (semicolon stop s).2.cursor ∧
    marks es = [] ∧ bracesOf (tokensOf es) = [] := by
  unfold semicolon
  split
  · rename_i kind
    refine ⟨[⟨s.peek, false⟩], State.takes_next kind (by decide) (.done _), rfl, List.filter_cons_of_neg ?_⟩
    simp [Token.isBrace, kind]
  · exact ⟨[], .done _, rfl, rfl⟩

theorem close_lays (stands : s.Stands source) (brace : s.peek.kind = .rbrace) :
    LaysClosed s [] (semicolon s.peek.stop s.take).1 (semicolon s.peek.stop s.take).2 := by
  have ends := semicolon_ends stands.take.stands s.place_take.ge
  have closes := State.next_is brace (by decide)
  obtain ⟨es, takes, same, none⟩ := semicolon_taken s.peek.stop s.take
  have taken := State.takes_next brace (by decide) takes
  refine ⟨⟨⟨s.peek, false⟩ :: es, [], s.peek, taken, ?_, ?_, closes, ?_, ends.low⟩, ends.high, List.forall_mem_nil _⟩
  · rw [groupsIn]
    exact same
  · rw [List.nil_append, ← none]
    exact List.filter_cons_of_pos (by simp [Token.isBrace, brace])
  · exact .done s.place_le_peek

theorem body_open (fuel : Nat) (ends : s.peek.kind = .eof) : (body fuel s).2.2.1 = false := by
  cases fuel with
  | zero => rw [body]
  | succ fuel => simp only [body, ends]

theorem body_lays {fuel : Nat} (blocks : LaysBlocks source fuel) (stands : s.Stands source)
    (enough : 2 * s.cursor.rest.length + 2 ≤ fuel + 1) : LaysBody s (body (fuel + 1) s) := by
  rw [body]
  dsimp only
  split
  · rename_i brace
    exact ⟨fun _ => close_lays stands brace, fun left => Bool.noConfusion left⟩
  · rename_i ends
    refine ⟨fun closed => Bool.noConfusion closed, fun _ => ⟨?_, ends⟩⟩
    rw [groupsIn]
    exact ((Draws.refl s).report _ _).lays
  · rename_i close ends
    have first := blocks.statement stands close (by omega)
    have read := (blocks_read source fuel).statement stands (by omega)
    have shorter := read.shorter ends
    have later := blocks.body read.onward.stands (by omega)
    generalize statement fuel s = result at first read shorter later
    obtain ⟨found, mid⟩ := result
    dsimp only at first read shorter later ⊢
    refine ⟨fun closed => ?_, fun left => ?_⟩
    · obtain ⟨⟨fs, inner, closing, further, marked, braces, closes, rest, low⟩, high, shut⟩ := later.closed closed
      obtain ⟨es, takes, same, weave⟩ := first.lays.taken
      refine ⟨⟨es ++ fs, bracesOf (tokensOf es) ++ inner, closing, takes.append further, ?_, ?_, closes, ?_, low⟩, high, ?_⟩
      · rw [groupsIn_append, ← same, ← marked]
        simp [marks]
      · rw [tokensOf_append, bracesOf_append, List.append_assoc, ← braces]
      · rw [nodesOf_append, tokensOf_append]
        exact (weave.imp (Excused.imp (List.prefix_append _ _).isInfix)).append
          (rest.imp (Excused.imp (List.suffix_append _ _).isInfix))
      · intro m member
        rw [nodesOf_append] at member
        rcases List.mem_append.mp member with here | below
        · -- Behind a child that is left open nothing could have closed this one.
          by_contra left
          have ended := first.left m here (by simpa using left)
          rw [body_open fuel ended] at closed
          exact Bool.noConfusion closed
        · exact shut m below
    · obtain ⟨lays, ended⟩ := later.left left
      refine ⟨?_, ended⟩
      rw [nodesOf_append, groupsIn_append]
      exact first.lays.trans lays

theorem LaysStatement.plain {found : Option Statement} (plain : nodesOf found.toList = [])
    (draws : Draws s (groupsIn found.toList) after) : LaysStatement s (found, after) := by
  refine ⟨?_, fun m member => ?_⟩
  · rw [plain]
    exact draws.lays
  · rw [plain] at member
    cases member

theorem LaysStatement.nothing (draws : Draws s [] after) : LaysStatement s (none, after) :=
  .plain rfl (by rwa [Option.toList, groupsIn])

theorem LaysStatement.property {p : PropertyDecl} (draws : Draws s p.groups after) :
    LaysStatement s (some (.property p), after) :=
  .plain rfl (by rwa [Option.toList, groupsIn, groupsIn, List.append_nil])

theorem LaysStatement.after_tokens {read : Option Statement × State} (one : Draws s [] mid) (two : LaysStatement mid read) :
    LaysStatement s read := ⟨.before one two.lays, two.left⟩

theorem declared_lays {fuel : Nat} (blocks : LaysBlocks source fuel) {found : List Label} {name : Token}
    (stands : s.Stands source) (place : s.place = name.stop) (enough : 2 * s.cursor.rest.length + 1 ≤ fuel) :
    LaysStatement s (declared fuel found name s) := by
  unfold declared
  split
  · rename_i brace
    have read : LaysNode s (node fuel found name s) := blocks.node stands place enough
    refine ⟨?_, fun m member left => ?_⟩
    · rw [Option.toList, groupsIn, groupsIn, List.append_nil]
      exact read.lays false
    · cases List.mem_singleton.mp member
      exact read.left brace left
  · rename_i kind
    exact .property (.next kind (by decide) (property_draws found name s.take))
  · rename_i kind
    exact .property (.take kind (by decide))
  · exact .property (bareProperty_draws found name s)

theorem omitted_lays (kind : s.peek.kind = .directive) (text : s.peek.text = utf8 "/omit-if-no-ref/")
    (close : s.take.peek.kind = .rbrace) (fuel : Nat) : LaysStatement s (statement (fuel + 1) s.take) := by
  have passed : statement (fuel + 1) s.take =
      (none, s.take.take.report s.take.peek.range (.unexpectedToken s.take.peek.text)) := by
    rw [statement]
    simp only [close]
  have brace := State.next_is close (by decide)
  have low : s.place ≤ s.take.peek.start := (s.place_le_stop.trans s.place_take.ge).trans s.take.place_le_peek
  have second : s.take.cursor.Takes [⟨s.take.peek, false⟩] s.take.take.cursor := State.takes_next close (by decide) (.done _)
  have taken := State.takes_next kind (by decide) second
  have braces : bracesOf (tokensOf [⟨s.peek, false⟩, ⟨s.take.peek, false⟩]) = [s.take.peek] := by
    simp [bracesOf, tokensOf, Token.isBrace, kind, close]
  rw [passed]
  refine ⟨⟨[⟨s.peek, false⟩, ⟨s.take.peek, false⟩], taken, ?_, ?_⟩, fun m member => by cases member⟩
  · rw [Option.toList, groupsIn]
    rfl
  · rw [braces]
    exact .stray low brace.proper (fun _ => .inr ⟨s.peek, kind, text, List.infix_refl _⟩) (.done s.take.place_take.ge)

theorem statement_lays {fuel : Nat} (blocks : LaysBlocks source fuel) (stands : s.Stands source)
    (other : s.peek.kind ≠ .rbrace) (enough : 2 * s.cursor.rest.length + 1 ≤ fuel + 1) :
    LaysStatement s (statement (fuel + 1) s) := by
  by_cases labelled : s.peek.kind = .label ∨ s.peek.kind = .name
  · rw [statement_eq labelled]
    have read := labels_onward s.rounds s stands
    refine .after_tokens (labels_draws s.rounds s) ?_
    generalize labels s.rounds s = result at read
    obtain ⟨found, mid⟩ := result
    dsimp only at read ⊢
    unfold declaration
    split
    · rename_i named
      have shorter := Nat.lt_of_lt_of_le (State.take_shorter (by simp [named])) read.left
      exact .after_tokens (.take named (by decide)) (declared_lays blocks read.stands.take.stands mid.place_take (by omega))
    · exact .nothing (skip_draws (mid.report mid.peek.range .labelWithoutName))
  rw [statement]
  dsimp only
  split
  · rename_i kind
    have shorter := s.take_shorter (by simp [kind])
    split
    · have draws := Draws.next kind (by decide) (delete_draws s.peek s.take)
      refine .plain ?_ ?_
      · cases (delete s.peek s.take).1 <;> rfl
      · cases (delete s.peek s.take).1 <;> simpa [groupsIn] using draws
    · split
      · rename_i text
        by_cases close : s.take.peek.kind = .rbrace
        · obtain ⟨k, rfl⟩ : ∃ k, fuel = k + 1 := ⟨fuel - 1, by omega⟩
          exact omitted_lays kind text close k
        · exact .after_tokens (.take kind (by decide)) (blocks.statement stands.take.stands close (by omega))
      · exact .nothing (.next kind (by decide) (skip_draws (s.take.report s.peek.range (.unexpectedDirective s.peek.text))))
  · rename_i kind
    exact .nothing (.take kind (by decide))
  · rename_i kind
    exact absurd (.inl kind) labelled
  · rename_i kind
    exact absurd (.inr kind) labelled
  · rename_i kind
    exact .nothing (.next kind (by decide) (skip_draws (s.take.report s.peek.range .nestedReferenceNode)))
  · rename_i kind
    exact .nothing (.next kind (by decide) (skip_draws (s.take.report s.peek.range .nestedReferenceNode)))
  · exact .nothing (.take rfl other)

theorem blocks_lay (source : Bytes) (fuel : Nat) : LaysBlocks source fuel := by
  induction fuel with
  | zero => exact ⟨fun _ _ enough => absurd enough (by omega), fun _ enough => absurd enough (by omega),
      fun _ _ enough => absurd enough (by omega)⟩
  | succ fuel ih => exact ⟨node_lays ih, body_lays ih, statement_lays ih⟩

end Parser

def Item.nodes : Item → List NodeDecl
  | .node n => [n]
  | .include _ => []
  | .directive _ => []
  | .delete _ => []

namespace Parser

variable {source : Bytes} {s mid after : State} {gs : List Position}

-- At the top level any closing brace is passed over.
def LaysItems (s : State) (found : List Item) (after : State) : Prop :=
  Lays true s (found.flatMap Item.nodes) (found.flatMap Item.groups) after

theorem LaysItems.nothing (draws : Draws s [] after) : LaysItems s [] after := draws.lays

theorem LaysItems.plain {i : Item} (plain : i.nodes = []) (draws : Draws s i.groups after) : LaysItems s [i] after := by
  rw [LaysItems, List.flatMap_singleton, List.flatMap_singleton, plain]
  exact draws.lays

theorem LaysItems.skipped (s : State) (range : Range) (problem : Problem) : LaysItems s [] (s.take.report range problem) := by
  by_cases ends : s.peek.kind = .eof
  · have takes : s.cursor.Takes [] s.take.cursor := .idle ends (.done _)
    exact ⟨[], takes, rfl, takes.weave (.inl rfl)⟩
  · have takes : s.cursor.Takes [⟨s.peek, false⟩] s.take.cursor := .token ends (.done _)
    exact ⟨_, takes, rfl, takes.weave (.inl rfl)⟩

theorem headed_lays (stands : s.Stands source) (found : List Label) :
    LaysItems s (Parser.headed found s).1.toList (Parser.headed found s).2 := by
  unfold Parser.headed
  split
  · rename_i kinds
    have left := stands.take.left
    have read : LaysNode s.take (node s.fuel found s.peek s.take) :=
      (blocks_lay source s.fuel).node stands.take.stands s.place_take (by unfold State.fuel; omega)
    have other : s.peek.kind ≠ .rbrace := fun close => by simp [close] at kinds
    rw [LaysItems, Option.toList, List.flatMap_singleton, List.flatMap_singleton]
    exact .before (.take rfl other) (read.lays true)
  · exact .nothing (.refl s)

theorem item_lays (fuel : Nat) (stands : s.Stands source) :
    LaysItems s (item fuel s).1.toList (item fuel s).2 := by
  induction fuel generalizing s with
  | zero => exact .nothing (.refl s)
  | succ fuel ih =>
    by_cases heads : s.peek.kind ∈ [TokenKind.label, .name, .slash, .ref, .pathRef]
    · rw [item_eq heads]
      exact .before (labels_draws s.rounds s) (headed_lays (labels_onward s.rounds s stands).stands _)
    rw [item]
    dsimp only
    split
    · rename_i kind
      split
      · exact .plain rfl (.take kind (by decide))
      · exact .nothing (.take kind (by decide))
    · rename_i kind
      split
      · exact .plain rfl (.next kind (by decide) (semicolon_draws s.peek.stop s.take))
      · split
        · refine .plain rfl ?_
          have draws := (reservation_draws 2 s.take).trans (semicolon_draws (reservation 2 s.take).2.last _)
          rw [List.append_nil] at draws
          exact .next kind (by decide) draws
        · split
          · unfold includeDirective
            dsimp only
            split
            · rename_i string
              exact .plain rfl (.next kind (by decide) (.take string (by decide)))
            · exact .nothing (.take kind (by decide))
          · split
            · have draws := Draws.next kind (by decide) (delete_draws s.peek s.take)
              generalize delete s.peek s.take = read at draws
              obtain ⟨found, after⟩ := read
              cases found with
              | none => exact .nothing draws
              | some d => exact .plain rfl draws
            · split
              · exact .before (.take kind (by decide)) (ih stands.take.stands)
              · exact .nothing (.next kind (by decide)
                  (skip_draws (s.take.report s.peek.range (.unknownDirective s.peek.text))))
    case h_8 => exact .skipped s _ _
    case h_9 => exact .skipped s _ _
    all_goals
      rename_i kind
      exact absurd (by simp [kind]) heads

theorem items_lay (fuel : Nat) (stands : s.Stands source) : LaysItems s (items fuel s).1 (items fuel s).2 := by
  fun_induction items fuel s with
  | case1 s => exact .nothing (.refl s)
  | case2 fuel s => exact .nothing (.refl s)
  | case3 fuel s _ found after equal more last again ih =>
    have first := item_lays s.rounds stands
    have onward := (item_reads s.rounds stands).onward
    rw [equal] at first onward
    rw [again] at ih
    rw [LaysItems, List.flatMap_append, List.flatMap_append]
    exact first.trans (ih onward.stands)

end Parser

namespace Document

def roots (d : Document) : List NodeDecl := d.items.flatMap Item.nodes

theorem nodes_eq (d : Document) : d.nodes = subtree d.roots := by
  rw [nodes, subtree, roots, List.flatMap_assoc]
  refine List.flatMap_congr fun i _ => ?_
  cases i <;> simp [Item.nodes]

def braces (source : Bytes) : List Token := bracesOf (delivered source)

theorem braces_weave (source : Bytes) :
    ∃ high, Weave (Excused (delivered source)) true .first (parse source).roots (braces source) high := by
  have lays := Parser.items_lay (Parser.State.start source).rounds (Parser.State.stands_start source)
  obtain ⟨es, takes, same, weave⟩ := lays.taken
  have groups : marks es = (parse source).groups := same
  have told := fun e member => groups ▸ takes.group_iff (e := e) member
  obtain ⟨left, whole⟩ := takes.delivered told takes.length_le
  obtain ⟨more, stop, further, tokens⟩ := Lexer.delivered_takes (parse source).groups left
    (Parser.items (Parser.State.start source).rounds (.start source)).2.cursor
  have split : delivered source = tokensOf es ++ tokensOf more := by
    rw [tokensOf, tokensOf, tokens]
    exact whole
  refine ⟨stop.position, ?_⟩
  rw [braces, split, bracesOf_append, ← List.append_nil (parse source).roots]
  exact (weave.imp (Excused.imp (List.prefix_append _ _).isInfix)).append (further.weave (.inl rfl))

def inner (source : Bytes) (n : NodeDecl) : List Token := between (braces source) n
def strays (source : Bytes) (n : NodeDecl) : List Token := strayIn (braces source) n

-- A closed node begins with an opening brace and ends with a closing one. Its block and those below it are balanced
-- exactly if the braces are that recovery passed over in each of them; these are opening braces, but for a closing one
-- right behind the directive that may stand before any statement.
theorem blocks_balanced_iff (source : Bytes) {n : NodeDecl} (member : n ∈ (parse source).nodes)
    (shut : n.head.closed = true) :
    word (heldBy (braces source) n) = .lbrace :: (word (inner source n) ++ [.rbrace]) ∧
    (∀ t ∈ strays source n, t.kind = .rbrace → Excused (delivered source) t) ∧
    ((∀ m ∈ n :: nodesIn n.body, BracesBalanced (word (inner source m))) ↔
      ∀ m ∈ n :: nodesIn n.body, BracesBalanced (word (strays source m))) := by
  obtain ⟨high, weave⟩ := braces_weave source
  have sits : Sits (braces source) .first (braces source) high := ⟨[], [], by simp, by simp, by simp⟩
  rw [nodes_eq] at member
  obtain ⟨opening, between, closing, encloses⟩ := weave.encloses sits member shut
  refine ⟨?_, ?_, ?_⟩
  · rw [inner, encloses.between_eq, encloses.held]
    simp [word, encloses.opens.kind, encloses.closes.kind]
  · rw [strays, strayIn, encloses.between_eq]
    intro t stray close
    exact (encloses.inside.strays_excused encloses.shut t stray close).resolve_left (by decide)
  · rw [nodesIn_children]
    exact encloses.subtree (encloses.inside.balanced encloses.sits encloses.shut)

def omittedText : Bytes := utf8 "/ \x7b &x \x7b ; /omit-if-no-ref/ \x7d a \x7b \x7d; \x7d;"

theorem omittedText_balanced : ∃ n ∈ (parse omittedText).nodes, n.head.closed = true ∧
    word (strays omittedText n) = [.lbrace, .rbrace] ∧ n.children.length = 1 ∧
    ∀ m ∈ n :: nodesIn n.body, BracesBalanced (word (inner omittedText m)) := by
  obtain ⟨n, member, shut, passed, one, own⟩ : ∃ n ∈ (parse omittedText).nodes, n.head.closed = true ∧
      word (strays omittedText n) = [.lbrace, .rbrace] ∧ n.children.length = 1 ∧
      ∀ m ∈ n.children, m.children.length = 0 ∧ BracesBalanced (word (strays omittedText m)) := by decide +kernel
  refine ⟨n, member, shut, passed, one, (blocks_balanced_iff omittedText member shut).2.2.mpr ?_⟩
  rw [List.forall_mem_cons, passed, nodesIn_children]
  refine ⟨by decide, fun m below => ?_⟩
  obtain ⟨child, here, inside⟩ := List.mem_flatMap.mp below
  rcases List.mem_cons.mp inside with rfl | deeper
  · exact (own m here).2
  · rw [nodesIn_children, List.length_eq_zero_iff.mp (own child here).1] at deeper
    cases deeper

-- A node by reference below the root: its opening brace is passed over, and its closing one ends the root.
def nestedText : Bytes := utf8 "/ \x7b &x \x7b \x7d; y; \x7d;"

theorem nestedText_unbalanced :
    ∃ n ∈ (parse nestedText).nodes, n.head.closed = true ∧ ¬ BracesBalanced (word (inner nestedText n)) := by
  decide +kernel

end Document
end DeviceTree
