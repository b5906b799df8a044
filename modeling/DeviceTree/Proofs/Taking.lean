import DeviceTree.Proofs.Spans

namespace DeviceTree

def Cursor.pastGroup (c : Cursor) : Cursor := c.advance (Group.scan 1 c.rest).text.length

-- The tokens from a cursor on, without the end. At a parenthesis in `groups` the text of the group is passed over.
def Lexer.delivered (groups : List Position) : (fuel : Nat) → Cursor → List Token
  | 0, _ => []
  | fuel + 1, c =>
    let (token, after) := c.next
    if token.kind = .eof then []
    else token ::
      delivered groups fuel (if token.kind = .lparen ∧ token.start ∈ groups then after.pastGroup else after)

structure Taken where
  token : Token
  group : Bool

def marks (taken : List Taken) : List Position := (taken.filter (·.group)).map (·.token.start)

namespace Cursor

-- What was taken between two cursors. The end of the source may be taken too; it is left out.
inductive Takes : Cursor → List Taken → Cursor → Prop where
  | done (c : Cursor) : Takes c [] c
  | token {c stop : Cursor} {es : List Taken} (more : c.next.1.kind ≠ .eof) (rest : Takes c.next.2 es stop) :
      Takes c (⟨c.next.1, false⟩ :: es) stop
  | group {c stop : Cursor} {es : List Taken} (opens : c.next.1.kind = .lparen)
      (rest : Takes c.next.2.pastGroup es stop) : Takes c (⟨c.next.1, true⟩ :: es) stop
  | idle {c stop : Cursor} {es : List Taken} (ends : c.next.1.kind = .eof) (rest : Takes c.next.2 es stop) :
      Takes c es stop

variable {c mid stop : Cursor} {es fs : List Taken}

theorem Takes.append (one : Takes c es mid) (two : Takes mid fs stop) : Takes c (es ++ fs) stop := by
  induction one with
  | done => exact two
  | token more _ ih => exact .token more (ih two)
  | group opens _ ih => exact .group opens (ih two)
  | idle ends _ ih => exact .idle ends (ih two)

theorem next_ends (ends : c.next.1.kind = .eof) : c.next.2.rest = [] := by
  by_contra more
  unfold next at ends more
  dsimp only at ends more
  split at ends
  · rename_i empty
    rw [empty] at more
    exact more empty
  · exact (Lexer.lexeme_mark _ _ _).1 ends

theorem next_nil (empty : c.rest = []) : c.next.1.kind = .eof := by
  have gap : c.skipGap.rest = [] := by rw [skipGap, advance_rest, empty, List.drop_nil]
  unfold next
  dsimp only
  rw [gap]

theorem Takes.ended (takes : Takes c es stop) (empty : c.rest = []) : es = [] ∧ stop.rest = [] := by
  induction takes with
  | done => exact ⟨rfl, empty⟩
  | token more => exact absurd (next_nil empty) more
  | group opens => exact absurd (opens.symm.trans (next_nil empty)) (by decide)
  | idle ends _ ih => exact ih (next_ends ends)

theorem next_proper (more : c.next.1.kind ≠ .eof) : c.next.1.start < c.next.1.stop := by
  refine Position.lt_after _ ?_
  unfold next at more ⊢
  dsimp only at more ⊢
  split
  · rename_i empty
    rw [empty] at more
    exact absurd rfl more
  · exact List.cons_ne_nil _ _

theorem le_pastGroup (c : Cursor) : c.position ≤ c.pastGroup.position := by
  rw [pastGroup, advance_position]
  exact Position.le_after _ _

theorem next_position (c : Cursor) : c.position ≤ c.next.1.start ∧ c.next.2.position = c.next.1.stop := by
  obtain ⟨gap, -, start, stop⟩ := c.next_whole
  exact ⟨start ▸ Position.le_after _ _, stop⟩

theorem Takes.between (takes : Takes c es stop) : Between c.position stop.position (es.map (·.token.range)) := by
  induction takes with
  | done => exact le_rfl
  | @token c stop es _ _ ih =>
    obtain ⟨low, behind⟩ := c.next_position
    exact ⟨low, c.next.1.start_le, ih.widen behind.ge le_rfl⟩
  | @group c stop es _ _ ih =>
    obtain ⟨low, behind⟩ := c.next_position
    exact ⟨low, c.next.1.start_le, ih.widen (behind.ge.trans (le_pastGroup _)) le_rfl⟩
  | @idle c stop es _ _ ih =>
    obtain ⟨low, behind⟩ := c.next_position
    exact ih.widen (low.trans (c.next.1.start_le.trans behind.ge)) le_rfl

theorem Takes.proper (takes : Takes c es stop) : ∀ e ∈ es, e.token.start < e.token.stop := by
  induction takes with
  | done => exact List.forall_mem_nil _
  | token more _ ih => exact List.forall_mem_cons.mpr ⟨next_proper more, ih⟩
  | group opens _ ih => exact List.forall_mem_cons.mpr ⟨next_proper (by rw [opens]; decide), ih⟩
  | idle _ _ ih => exact ih

-- So no two of them begin at one place, and the places of the groups tell which of them begin one.

theorem Takes.distinct (takes : Takes c es stop) : es.Pairwise fun a b => a.token.start ≠ b.token.start := by
  have apart := List.pairwise_map.mp takes.between.pairwise
  refine apart.imp_of_mem fun {a b} first _ behind => ?_
  exact ((takes.proper a first).trans_le behind).ne

theorem Takes.group_iff (takes : Takes c es stop) {e : Taken} (member : e ∈ es) :
    e.group = true ↔ e.token.start ∈ marks es := by
  constructor
  · intro group
    exact List.mem_map_of_mem (List.mem_filter.mpr ⟨member, group⟩)
  · intro marked
    obtain ⟨f, found, same⟩ := List.mem_map.mp marked
    obtain ⟨other, group⟩ := List.mem_filter.mp found
    by_cases equal : e = f
    · exact equal ▸ group
    · have symmetric : Std.Symm fun a b : Taken => a.token.start ≠ b.token.start := ⟨fun _ _ => Ne.symm⟩
      exact absurd same.symm (takes.distinct.forall member other equal)

end Cursor

namespace Lexer

theorem delivered_ends {groups : List Position} {fuel : Nat} {c : Cursor} (ends : c.next.1.kind = .eof) :
    delivered groups fuel c = [] := by
  cases fuel with
  | zero => rfl
  | succ fuel => simp [delivered, ends]

theorem delivered_more {groups : List Position} {fuel : Nat} {c : Cursor} (more : c.next.1.kind ≠ .eof) :
    delivered groups (fuel + 1) c = c.next.1 :: delivered groups fuel
      (if c.next.1.kind = .lparen ∧ c.next.1.start ∈ groups then c.next.2.pastGroup else c.next.2) := by
  simp [delivered, more]

theorem delivered_takes (groups : List Position) (fuel : Nat) (c : Cursor) :
    ∃ es stop, c.Takes es stop ∧ es.map (·.token) = delivered groups fuel c := by
  induction fuel generalizing c with
  | zero => exact ⟨[], c, .done c, rfl⟩
  | succ fuel ih =>
    by_cases ends : c.next.1.kind = .eof
    · exact ⟨[], c, .done c, (delivered_ends ends).symm⟩
    rw [delivered_more ends]
    split
    · rename_i opens
      obtain ⟨es, stop, takes, same⟩ := ih c.next.2.pastGroup
      exact ⟨_, stop, .group opens.1 takes, by rw [List.map_cons, same]⟩
    · obtain ⟨es, stop, takes, same⟩ := ih c.next.2
      exact ⟨_, stop, .token ends takes, by rw [List.map_cons, same]⟩

end Lexer

namespace Cursor

open Lexer

variable {c mid stop : Cursor} {es fs : List Taken}

theorem Takes.delivered {groups : List Position} (takes : c.Takes es stop)
    (told : ∀ e ∈ es, e.group = true ↔ e.token.start ∈ groups) {fuel : Nat} (enough : es.length ≤ fuel) :
    ∃ left, Lexer.delivered groups fuel c = es.map (·.token) ++ Lexer.delivered groups left stop := by
  induction takes generalizing fuel with
  | done => exact ⟨fuel, rfl⟩
  | @token c stop es more rest ih =>
    obtain ⟨here, later⟩ := List.forall_mem_cons.mp told
    cases fuel with
    | zero => exact absurd enough (Nat.not_succ_le_zero _)
    | succ fuel =>
      obtain ⟨left, same⟩ := ih later (Nat.le_of_succ_le_succ enough)
      have plain : ¬ (c.next.1.kind = .lparen ∧ c.next.1.start ∈ groups) := fun group => by simpa using here.mpr group.2
      exact ⟨left, by rw [delivered_more more, if_neg plain, same]; rfl⟩
  | @group c stop es opens rest ih =>
    obtain ⟨here, later⟩ := List.forall_mem_cons.mp told
    cases fuel with
    | zero => exact absurd enough (Nat.not_succ_le_zero _)
    | succ fuel =>
      obtain ⟨left, same⟩ := ih later (Nat.le_of_succ_le_succ enough)
      have more : c.next.1.kind ≠ .eof := by rw [opens]; decide
      exact ⟨left, by rw [delivered_more more, if_pos ⟨opens, here.mp rfl⟩, same]; rfl⟩
  | @idle c stop es ends rest ih =>
    -- Nothing is left at the end of the source.
    obtain ⟨rfl, empty⟩ := rest.ended (Cursor.next_ends ends)
    exact ⟨0, delivered_ends ends⟩

theorem Takes.length_le (takes : c.Takes es stop) : es.length ≤ c.rest.length := by
  induction takes with
  | done => exact Nat.zero_le _
  | token more _ ih => exact Nat.lt_of_le_of_lt ih (next_shorter more)
  | @group c stop es opens _ ih =>
    have shorter := next_shorter (c := c) (by rw [opens]; decide)
    rw [pastGroup, advance_rest, List.length_drop] at ih
    exact Nat.lt_of_le_of_lt (ih.trans (Nat.sub_le _ _)) shorter
  | idle ends rest _ =>
    obtain ⟨rfl, -⟩ := rest.ended (next_ends ends)
    exact Nat.zero_le _

end Cursor

-- The groups of a result, in the order of the source. An expression in parentheses keeps them in its text.

def Cell.group? : Cell → Option Position
  | .int range (0x28 :: _) _ => some range.start
  | _ => none

def Value.groups : Value → List Position
  | .array a => a.cells.filterMap Cell.group?
  | _ => []

def PropertyDecl.groups (p : PropertyDecl) : List Position := p.values.flatMap Value.groups

def groupsIn : List Statement → List Position
  | [] => []
  | .property p :: rest => p.groups ++ groupsIn rest
  | .node _ body :: rest => groupsIn body ++ groupsIn rest
  | .delete _ :: rest => groupsIn rest

theorem groupsIn_append (front back : List Statement) : groupsIn (front ++ back) = groupsIn front ++ groupsIn back := by
  induction front with
  | nil => simp [groupsIn]
  | cons stmt rest ih => cases stmt <;> simp [groupsIn, ih]

def Item.groups : Item → List Position
  | .directive d => d.values.flatMap Value.groups
  | .node n => groupsIn n.body
  | .include _ => []
  | .delete _ => []

namespace Document

def groups (d : Document) : List Position := d.items.flatMap Item.groups

def delivered (source : Bytes) : List Token :=
  Lexer.delivered (parse source).groups source.length (Cursor.ofSource source)

end Document

namespace Parser

variable {s mid after : State} {gs hs : List Position}

def Draws (s : State) (gs : List Position) (after : State) : Prop :=
  ∃ es, s.cursor.Takes es after.cursor ∧ marks es = gs ∧ ∀ e ∈ es, e.token.kind ≠ .rbrace

theorem Draws.refl (s : State) : Draws s [] s := ⟨[], .done _, rfl, List.forall_mem_nil _⟩

theorem Draws.take {kind : TokenKind} (seen : s.peek.kind = kind) (other : kind ≠ .rbrace) : Draws s [] s.take := by
  by_cases ends : s.peek.kind = .eof
  · exact ⟨[], .idle ends (.done _), rfl, List.forall_mem_nil _⟩
  · exact ⟨[⟨s.peek, false⟩], .token ends (.done _), rfl, by simpa [seen] using other⟩

theorem Draws.trans (one : Draws s gs mid) (two : Draws mid hs after) : Draws s (gs ++ hs) after := by
  obtain ⟨es, first, rfl, plain⟩ := one
  obtain ⟨fs, second, rfl, other⟩ := two
  refine ⟨es ++ fs, first.append second, by simp [marks], fun e member => ?_⟩
  exact (List.mem_append.mp member).elim (plain e) (other e)

theorem Draws.report (draws : Draws s gs after) (range : Range) (problem : Problem) :
    Draws s gs (after.report range problem) := draws

theorem Draws.then (one : Draws s [] mid) (two : Draws mid gs after) : Draws s gs after := one.trans two

theorem Draws.next {kind : TokenKind} (seen : s.peek.kind = kind) (other : kind ≠ .rbrace) (draws : Draws s.take gs after) :
    Draws s gs after := (Draws.take seen other).then draws

theorem Draws.group (opens : s.peek.kind = .lparen) :
    Draws s [s.peek.start] { s.take with cursor := s.take.cursor.pastGroup } := by
  refine ⟨[⟨s.peek, true⟩], .group opens (.done _), rfl, ?_⟩
  simp [opens]

theorem semicolon_draws (stop : Position) (s : State) : Draws s [] (semicolon stop s).2 := by
  unfold semicolon
  split
  · rename_i kind
    exact .take kind (by decide)
  · exact .refl s

theorem skipStatement_draws (fuel : Nat) (s : State) : Draws s [] (skipStatement fuel s) := by
  fun_induction skipStatement fuel s with
  | case4 fuel s kind => exact .take kind (by decide)
  | case5 fuel s _ close _ ih => exact .next rfl close ih
  | _ => exact .refl _

theorem skip_draws (s : State) : Draws s [] (skip s) := skipStatement_draws s.rounds s

theorem labels_draws (fuel : Nat) (s : State) : Draws s [] (labels fuel s).2 := by
  fun_induction labels fuel s with
  | case2 fuel s t label more after equal ih =>
    rw [equal] at ih
    exact .next label (by decide) ih
  | _ => exact .refl _

theorem cellOfToken_group (kind : s.peek.kind = .name ∨ s.peek.kind = .char) : (cellOfToken s.peek).group? = none := by
  have other := text_not_group kind
  unfold cellOfToken
  generalize s.peek.text = text at other
  unfold Cell.group?
  split
  · rename_i equal
    cases equal
    exact absurd rfl (other _)
  · rfl

theorem cells_draws (fuel : Nat) (s : State) :
    Draws s ((cells fuel s).1.filterMap Cell.group?) (cells fuel s).2.2 := by
  fun_induction cells fuel s with
  | case1 s => exact .refl s
  | case2 fuel s t kind => exact .take kind (by decide)
  | case3 fuel s t kind more rest equal ih =>
    rw [equal] at ih
    rw [List.filterMap_cons_none (cellOfToken_group (.inl kind))]
    exact .next kind (by decide) ih
  | case4 fuel s t kind more rest equal ih =>
    rw [equal] at ih
    rw [List.filterMap_cons_none (cellOfToken_group (.inr kind))]
    exact .next kind (by decide) ih
  | case5 fuel s t kind more rest equal ih =>
    rw [equal] at ih
    exact .next kind (by decide) ih
  | case6 fuel s t kind more rest equal ih =>
    rw [equal] at ih
    exact .next kind (by decide) ih
  | case7 fuel s t kind opened group text range after closed more rest equal ih =>
    rw [equal] at ih
    exact .trans (.group kind) ih
  | case8 fuel s t kind opened group text range after open_ more rest equal ih =>
    rw [equal] at ih
    exact .trans (.group kind) ih
  | case9 fuel s t => exact .refl s

theorem array_draws (t : Token) (width : Width) (s : State) :
    Draws s (Value.array (array t width s).1).groups (array t width s).2 := cells_draws s.rounds s

theorem byteElements_draws (fuel : Nat) (s : State) : Draws s [] (byteElements fuel s).2.2 := by
  fun_induction byteElements fuel s with
  | case1 s => exact .refl s
  | case2 fuel s t kind => exact .take kind (by decide)
  | case3 fuel s t kind found good equal next more rest again ih =>
    rw [again] at ih
    have here : Draws s [] next := by
      cases good with
      | true => exact .take kind (by decide)
      | false => exact .take kind (by decide)
    exact here.then ih
  | case4 fuel s t => exact .refl s

def foundGroups : Option Value → List Position
  | some v => v.groups
  | none => []

theorem chosenWidth_draws (s : State) : Draws s [] (chosenWidth s).2 := by
  unfold chosenWidth
  split
  · rename_i kind
    split
    · exact .take kind (by decide)
    · exact .take kind (by decide)
  · exact .refl s

theorem sizedArray_draws (t size : Token) (width : Width) (s : State) :
    Draws s (foundGroups (sizedArray t size width s).1) (sizedArray t size width s).2 := by
  unfold sizedArray
  split
  · rename_i kind
    exact .next kind (by decide) (array_draws s.peek width s.take)
  · exact .refl s

theorem value_draws (s : State) : Draws s (foundGroups (value s).1) (value s).2 := by
  unfold value
  dsimp only
  split
  · rename_i kind
    split
    · exact .take kind (by decide)
    · exact .take kind (by decide)
  · rename_i kind
    exact .next kind (by decide) (array_draws s.peek .w32 s.take)
  · rename_i kind
    exact .next kind (by decide) (byteElements_draws s.take.rounds s.take)
  · rename_i kind
    exact .take kind (by decide)
  · rename_i kind
    exact .take kind (by decide)
  · rename_i kind
    split
    · rw [wideArray_eq]
      have read := sizedArray_draws s.peek s.take.peek (chosenWidth s.take).1 (chosenWidth s.take).2
      exact .next kind (by decide) ((chosenWidth_draws s.take).then read)
    · exact .refl s
  · rename_i kind
    split
    · exact .take kind (by decide)
    · exact .take kind (by decide)
  · exact .refl s

theorem values_draws (fuel : Nat) (stop : Position) (s : State) :
    Draws s ((values fuel stop s).1.flatMap Value.groups) (values fuel stop s).2.2 := by
  fun_induction values fuel stop s with
  | case1 stop s => exact .refl s
  | case2 fuel stop s after equal =>
    have first := value_draws s
    rw [equal] at first
    exact first
  | case3 fuel stop s v after equal comma more rest again ih =>
    have first := value_draws s
    rw [equal] at first
    rw [again] at ih
    exact first.trans (.next comma (by decide) ih)
  | case4 fuel stop s v after equal last =>
    have first := value_draws s
    rw [equal] at first
    simpa [foundGroups] using first

theorem skipLine_draws (fuel : Nat) (stop : Position) (s : State) : Draws s [] (skipLine fuel stop s).2 := by
  fun_induction skipLine fuel stop s with
  | case3 fuel stop s t _ kind => exact .take kind (by decide)
  | case4 fuel stop s t more _ ih =>
    have other : s.peek.kind ≠ .rbrace := fun close => more (by simp [t, close])
    exact .next rfl other ih
  | _ => exact .refl _

theorem ended_draws (stop : Position) (s : State) : Draws s [] (ended stop s).2 := by
  unfold ended
  split
  · rename_i kind
    exact .take kind (by decide)
  · exact skipLine_draws _ stop (s.report (.point stop) .missingSemicolon)

theorem property_draws (found : List Label) (name : Token) (s : State) :
    Draws s (property found name s).1.groups (property found name s).2 := by
  have read := values_draws s.rounds name.stop s
  rw [property_eq]
  simpa [PropertyDecl.groups, propertyDecl] using read.trans (ended_draws _ _)

theorem bareProperty_draws (found : List Label) (name : Token) (s : State) :
    Draws s (bareProperty found name s).1.groups (bareProperty found name s).2 := by
  unfold bareProperty
  dsimp only
  split
  · exact skip_draws (s.report name.range .incompleteDeclaration)
  · exact .refl s

theorem delete_draws (t : Token) (s : State) : Draws s [] (delete t s).2 := by
  have ends := semicolon_draws s.peek.stop s.take
  have skipped := skip_draws (s.take.report s.peek.range .propertyDeletedByReference)
  unfold delete
  dsimp only
  split
  · rename_i kind
    exact .next kind (by decide) ends
  · rename_i kind
    split
    · exact .next kind (by decide) ends
    · exact .next kind (by decide) skipped
  · rename_i kind
    split
    · exact .next kind (by decide) ends
    · exact .next kind (by decide) skipped
  · exact skip_draws (s.report s.peek.range (.expectedNameAfter t.text))

theorem reservation_draws (count : Nat) (s : State) :
    Draws s ((reservation count s).1.flatMap Value.groups) (reservation count s).2 := by
  fun_induction reservation count s with
  | case2 count s t kind more after equal ih =>
    rw [equal] at ih
    have single : (Value.array ⟨s.peek.range, .w64, [cellOfToken s.peek]⟩).groups = [] := by
      rw [Value.groups, List.filterMap_cons_none (cellOfToken_group (.inl kind)), List.filterMap_nil]
    have groups : (Value.array ⟨s.peek.range, .w64, [cellOfToken s.peek]⟩ :: more).flatMap Value.groups =
        more.flatMap Value.groups := by rw [List.flatMap_cons, single, List.nil_append]
    rw [groups]
    exact .next kind (by decide) ih
  | case3 count s t kind a after equal more last again ih =>
    have read := array_draws s.peek .w32 s.take
    rw [show array s.peek .w32 s.take = (a, after) from equal] at read
    rw [again] at ih
    exact .next kind (by decide) (read.trans ih)
  | _ => exact .refl _

end Parser
end DeviceTree
