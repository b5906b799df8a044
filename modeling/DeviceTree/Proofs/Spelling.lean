import DeviceTree.Proofs.Spans

namespace DeviceTree
open Lexer

namespace Position

-- The text between a position and the beginning of its line has no line end, so that line starts and columns agree.

theorem line_after (p : Position) (text : Bytes) : (p.after text).line = p.line + text.count 0x0a := by
  induction text generalizing p with
  | nil => rfl
  | cons b rest ih =>
    have later := ih (p.step b)
    change ((p.step b).after rest).line = _
    rw [later, List.count_cons]
    by_cases feed : b = 0x0a
    · simp [step, feed]
      omega
    · simp [step, feed]

theorem starts_head (offset : Nat) (text : Bytes) : (lineStarts.go offset text)[0]? = some offset := by
  cases text with
  | nil => rfl
  | cons b rest =>
    unfold lineStarts.go
    split
    · rfl
    · split <;> rfl

theorem starts_behind (offset : Nat) (front rest : Bytes) :
    (lineStarts.go offset (front ++ 0x0a :: rest))[front.count 0x0a + 1]? = some (offset + front.length + 1) := by
  induction front generalizing offset with
  | nil => exact starts_head (offset + 1) rest
  | cons b front ih =>
    have later := ih (offset + 1)
    rw [List.cons_append, lineStarts.go, List.length_cons, List.count_cons]
    by_cases feed : b = 0x0a
    · simp only [feed, if_true, BEq.rfl, List.getElem?_cons_succ, later, Option.some.injEq]
      omega
    · simp only [feed, if_false, beq_iff_eq, Nat.add_zero]
      split
      · rename_i equal
        rw [equal, List.getElem?_cons_succ] at later
        rw [List.getElem?_cons_succ, later, Option.some.injEq]
        omega
      · rename_i equal
        rw [equal] at later
        cases later

-- Where the line of a position begins, and how far the position is behind that.
theorem starts_after (front rest : Bytes) : ∃ start,
    (lineStarts (front ++ rest))[(first.after front).line - 1]? = some start ∧
    start + (first.after front).column = front.length + 1 := by
  induction front using List.reverseRecOn generalizing rest with
  | nil => exact ⟨0, starts_head 0 rest, rfl⟩
  | append_singleton front b ih =>
    obtain ⟨start, found, sum⟩ := ih (b :: rest)
    rw [List.append_assoc, List.length_append, after_append]
    change ∃ start, (lineStarts (front ++ b :: rest))[((first.after front).step b).line - 1]? = some start ∧
      start + ((first.after front).step b).column = front.length + 1 + 1
    by_cases feed : b = 0x0a
    · have line : ((first.after front).step b).line - 1 = front.count 0x0a + 1 := by
        rw [step, if_pos feed, line_after]
        simp only [first]
        omega
      have behind := starts_behind 0 front rest
      rw [Nat.zero_add] at behind
      refine ⟨front.length + 1, ?_, ?_⟩
      · rw [line, feed]
        exact behind
      · rw [step, if_pos feed]
    · rw [step, if_neg feed]
      refine ⟨start, found, ?_⟩
      dsimp only
      omega

theorem toOffset_after (front rest : Bytes) : (first.after front).toOffset (front ++ rest) = some front.length := by
  obtain ⟨start, found, sum⟩ := starts_after front rest
  rw [toOffset, found, Option.map_some, Option.some.injEq]
  omega

end Position

namespace Range

def text? (source : Bytes) (r : Range) : Option Bytes := do
  let start ← r.start.toOffset source
  let stop ← r.stop.toOffset source
  return (source.take stop).drop start

def Spells (source : Bytes) (r : Range) (word : Bytes) : Prop := r.text? source = some word

theorem spells_part {source front word : Bytes} (part : front ++ word <+: source) :
    Spells source ⟨.after .first front, .after .first (front ++ word)⟩ word := by
  obtain ⟨rest, rfl⟩ := part
  have start := Position.toOffset_after front (word ++ rest)
  have stop := Position.toOffset_after (front ++ word) rest
  rw [← List.append_assoc] at start
  simp only [Spells, text?, start, stop, Option.bind_eq_bind, Option.bind_some, Option.pure_def, Option.some.injEq]
  rw [List.take_left, List.drop_left]

example : text? (utf8 "#include \"board.dtsi\"\n") ⟨⟨1, 10⟩, ⟨1, 22⟩⟩ = some (utf8 "\"board.dtsi\"") := by decide

end Range

theorem Bytes.cut_eq {sep : UInt8} {text before after : Bytes} (found : cut sep text = some (before, after)) :
    text = before ++ sep :: after := by
  fun_induction cut sep text generalizing before after with
  | case1 => cases found
  | case2 rest =>
    cases found
    rfl
  | case3 b rest other front back equal ih =>
    cases found
    rw [ih equal, List.cons_append]
  | case4 => cases found

def Target.spelling : Target → Bytes
  | .label [] => utf8 "&\x7b\x7d"
  | target => target.text

def Heading.spelling : Heading → Bytes
  | .name title => title
  | .ref r => r.target.spelling

def Victim.spelling : Victim → Bytes
  | .node title => title
  | .property title => title
  | .target r => r.target.spelling

def Include.delimited (i : Include) : Bytes := if i.system then 0x3c :: i.path ++ [0x3e] else 0x22 :: i.path ++ [0x22]

section TrueTo

variable (source : Bytes)

def Ref.TrueTo (r : Ref) : Prop := r.range.Spells source r.target.spelling

def Label.TrueTo (l : Label) : Prop := l.range.Spells source (l.name ++ [0x3a])

def Cell.TrueTo : Cell → Prop
  | .int range raw _ => range.Spells source raw
  | .ref r => r.TrueTo source

def Value.TrueTo : Value → Prop
  | .array a => ∀ c ∈ a.cells, c.TrueTo source
  | .ref r => r.TrueTo source
  | .string .. | .bytes .. => True

structure PropertyDecl.TrueTo (p : PropertyDecl) : Prop where
  name : p.nameRange.Spells source p.name
  labels : ∀ l ∈ p.labels, l.TrueTo source
  values : ∀ v ∈ p.values, v.TrueTo source

structure NodeHead.TrueTo (h : NodeHead) : Prop where
  name : h.nameRange.Spells source h.heading.spelling
  labels : ∀ l ∈ h.labels, l.TrueTo source
  ref : ∀ r ∈ h.heading.ref?, r.TrueTo source

structure Delete.TrueTo (d : Delete) : Prop where
  name : d.nameRange.Spells source d.victim.spelling
  ref : ∀ r, d.victim = .target r → r.TrueTo source

-- A preprocessor line holds the path as it is; a directive is followed by a string literal, which is read.
inductive Include.TrueTo (i : Include) : Prop where
  | line (text : Bytes) (whole : i.range.Spells source (0x23 :: text)) (path : i.pathRange.Spells source i.delimited)
  | directive (text literal : Bytes) (whole : i.range.Spells source (utf8 "/include/" ++ text))
      (path : i.pathRange.Spells source literal) (quoted : IsQuoted 0x22 literal)
      (read : i.path = (Parser.literal literal).1) (plain : i.system = false)

def Statement.TrueTo : Statement → Prop
  | .property p => p.TrueTo source
  | .node head _ => head.TrueTo source
  | .delete d => d.TrueTo source

end TrueTo

def statementsIn : List Statement → List Statement
  | [] => []
  | .node head body :: rest => .node head body :: (statementsIn body ++ statementsIn rest)
  | .property p :: rest => .property p :: statementsIn rest
  | .delete d :: rest => .delete d :: statementsIn rest

theorem statementsIn_append (front back : List Statement) :
    statementsIn (front ++ back) = statementsIn front ++ statementsIn back := by
  induction front with
  | nil => simp [statementsIn]
  | cons stmt rest ih => cases stmt <;> simp [statementsIn, ih]

def Item.TrueTo (source : Bytes) : Item → Prop
  | .include i => i.TrueTo source
  | .directive d => ∀ v ∈ d.values, v.TrueTo source
  | .delete d => d.TrueTo source
  | .node n => n.head.TrueTo source ∧ ∀ stmt ∈ statementsIn n.body, stmt.TrueTo source

def Token.Stands (source : Bytes) (t : Token) : Prop :=
  ∃ front, front ++ t.lexeme <+: source ∧ t.start = Position.first.after front

theorem Token.Stands.spells {source : Bytes} {t : Token} (stands : t.Stands source) : t.range.Spells source t.lexeme := by
  obtain ⟨front, part, start⟩ := stands
  have stop : t.stop = Position.first.after (front ++ t.lexeme) := by
    rw [Position.after_append, ← start]
    rfl
  rw [Token.range, start, stop]
  exact Range.spells_part part

namespace Lexer

theorem lexeme_first (fresh : Bool) (first : UInt8) (rest : Bytes) :
    ((lexeme fresh first rest).1 = .slash → first :: rest.take (lexeme fresh first rest).2 = [0x2f]) ∧
      ((lexeme fresh first rest).1 = .preproc → first = 0x23) ∧
      ((lexeme fresh first rest).1 = .string → IsQuoted 0x22 (first :: rest.take (lexeme fresh first rest).2)) := by
  have names := name_kind first rest
  have chars := quoted_kind .char first rest
  have references := reference_kinds rest
  unfold lexeme
  split
  case h_1 same =>
    refine ⟨fun kind => ?_, fun kind => ?_, fun kind => ?_⟩
    · unfold slash at kind ⊢
      split at kind
      · cases kind
      · dsimp only at kind ⊢
        split at kind
        · cases kind
        · rename_i open_ word
          rw [if_neg open_, if_neg word, byte_of_char same]
          rfl
    · rcases slash_kind rest with other | other | other <;> simp [other] at kind
    · rcases slash_kind rest with other | other | other <;> simp [other] at kind
  case h_2 same =>
    split
    · exact ⟨by simp, fun _ => byte_of_char same, by simp⟩
    · rcases names with kind | kind <;> simp [kind]
  case h_3 same =>
    rw [byte_of_char same, quoted]
    generalize found : quotedLength '"'.toUInt8 rest = length
    obtain ⟨n, closed⟩ := length
    cases closed with
    | false => simp
    | true => exact ⟨by simp, by simp, fun _ => quoted_fits (by decide) found⟩
  case h_4 => rcases chars with kind | kind <;> simp [kind]
  case h_5 =>
    simp only [List.mem_cons, List.not_mem_nil, or_false] at references
    rcases references with kind | kind | kind | kind <;> simp [kind]
  case h_17 =>
    split
    · rcases names with kind | kind <;> simp [kind]
    · simp
  all_goals simp

end Lexer

theorem Cursor.next_first (c : Cursor) : (c.next.1.kind = .slash → c.next.1.lexeme = [0x2f]) ∧
    (c.next.1.kind = .preproc → ∃ text, c.next.1.lexeme = 0x23 :: text) ∧
    (c.next.1.kind = .string → IsQuoted 0x22 c.next.1.lexeme) := by
  unfold next
  dsimp only
  split
  · simp
  · rename_i b rest _
    obtain ⟨slash, preproc, string⟩ := Lexer.lexeme_first c.skipGap.fresh b rest
    exact ⟨slash, fun kind => ⟨_, by rw [preproc kind]⟩, string⟩

namespace Parser

variable {source : Bytes} {s after : State}

theorem State.Stands.token (stands : s.Stands source) : s.peek.Stands source := by
  obtain ⟨front, whole, start⟩ := stands.peek
  exact ⟨front, ⟨_, whole.symm⟩, start⟩

theorem text_lexeme {t : Token} (other : t.kind ≠ .label) : t.text = t.lexeme := by
  unfold Token.text
  split
  · rename_i label
    exact absurd label other
  · rfl

theorem labels_true (fuel : Nat) (s : State) (stands : s.Stands source) : ∀ l ∈ (labels fuel s).1, l.TrueTo source := by
  fun_induction labels fuel s with
  | case1 s => exact List.forall_mem_nil _
  | case2 fuel s t label more after equal ih =>
    rw [equal] at ih
    have here : (Label.mk t.text t.range).TrueTo source := by
      have fits := s.cursor.next_fits
      rw [show s.cursor.next.1.kind = .label from label] at fits
      obtain ⟨name, lexeme, -⟩ := fits
      have lexeme : t.lexeme = name ++ [0x3a] := lexeme
      have text : t.text = name := by simp [Token.text, label, lexeme]
      have spells := stands.token.spells
      rw [show s.peek.lexeme = name ++ [0x3a] from lexeme] at spells
      rw [Label.TrueTo, text]
      exact spells
    exact List.forall_mem_cons.mpr ⟨here, ih stands.take.stands⟩
  | case3 fuel s => exact List.forall_mem_nil _

theorem refOfToken_spelling {t : Token} (ref : t.kind = .ref ∨ t.kind = .pathRef) (fits : Fits t.kind t.lexeme) :
    (refOfToken t).target.spelling = t.lexeme := by
  rcases ref with ref | ref
  · rw [ref] at fits
    obtain ⟨label, lexeme, proper⟩ := fits
    rw [target_ref ref lexeme, lexeme]
    cases label with
    | nil => exact absurd rfl proper.1
    | cons b rest => rfl
  · rw [ref] at fits
    obtain ⟨path, lexeme, -⟩ := fits
    rw [target_pathRef ref lexeme, lexeme]
    split
    · rename_i empty
      rw [empty]
      rfl
    · rfl

theorem refOfToken_true (stands : s.Stands source) (ref : s.peek.kind = .ref ∨ s.peek.kind = .pathRef) :
    (refOfToken s.peek).TrueTo source := by
  rw [Ref.TrueTo, refOfToken_spelling ref s.cursor.next_fits]
  exact stands.token.spells

theorem cell_true {range : Range} {raw : Bytes} {value : Option Int64}
    (located : (Cell.int range raw value).Located source) : (Cell.int range raw value).TrueTo source := by
  obtain ⟨front, part, rfl⟩ := located
  exact Range.spells_part part

theorem cells_true (fuel : Nat) (s : State) (stands : s.Stands source) : ∀ c ∈ (cells fuel s).1, c.TrueTo source := by
  fun_induction cells fuel s with
  | case3 fuel s t kind more rest equal ih =>
    rw [equal] at ih
    exact List.forall_mem_cons.mpr ⟨cell_true (cellOfToken_located stands (.inl kind)), ih stands.take.stands⟩
  | case4 fuel s t kind more rest equal ih =>
    rw [equal] at ih
    exact List.forall_mem_cons.mpr ⟨cell_true (cellOfToken_located stands (.inr kind)), ih stands.take.stands⟩
  | case5 fuel s t kind more rest equal ih =>
    rw [equal] at ih
    exact List.forall_mem_cons.mpr ⟨refOfToken_true stands (.inl kind), ih stands.take.stands⟩
  | case6 fuel s t kind more rest equal ih =>
    rw [equal] at ih
    exact List.forall_mem_cons.mpr ⟨refOfToken_true stands (.inr kind), ih stands.take.stands⟩
  | case7 fuel s t kind opened group text range after closed more rest equal ih =>
    rw [equal] at ih
    obtain ⟨onward, -, -⟩ := group_within stands kind
    exact List.forall_mem_cons.mpr ⟨cell_true (group_located stands kind _), ih onward.stands⟩
  | case8 fuel s t kind opened group text range after open_ more rest equal ih =>
    rw [equal] at ih
    obtain ⟨onward, -, -⟩ := group_within stands kind
    have reported := onward.report range .unbalancedGroup
    exact List.forall_mem_cons.mpr ⟨cell_true (group_located stands kind _), ih reported.stands⟩
  | _ => exact List.forall_mem_nil _

theorem array_true (t : Token) (width : Width) (stands : s.Stands source) :
    ∀ c ∈ (array t width s).1.cells, c.TrueTo source :=
  cells_true s.rounds s stands

theorem wideArray_true (t : Token) (stands : s.Stands source) : ∀ v ∈ (wideArray t s).1, v.TrueTo source := by
  have chosen := chosenWidth_onward stands
  rw [wideArray_eq]
  by_cases opens : (chosenWidth s).2.peek.kind = .langle
  · rw [sizedArray_opened opens]
    intro v member
    cases member
    dsimp only [Value.TrueTo]
    exact array_true _ _ chosen.stands.take.stands
  · simp [sizedArray_missing opens]

theorem value_true (stands : s.Stands source) : ∀ v ∈ (value s).1, v.TrueTo source := by
  have taken := stands.take
  unfold value
  dsimp only
  split
  · intro v member
    cases member
    trivial
  · intro v member
    cases member
    exact array_true _ _ taken.stands
  · intro v member
    cases member
    trivial
  · rename_i kind
    intro v member
    cases member
    exact refOfToken_true stands (.inl kind)
  · rename_i kind
    intro v member
    cases member
    exact refOfToken_true stands (.inr kind)
  · split
    · exact wideArray_true _ taken.stands
    · simp
  · split
    · intro v member
      cases member
      trivial
    · simp
  · simp

theorem values_true (fuel : Nat) (stop : Position) (s : State) (stands : s.Stands source) :
    ∀ v ∈ (values fuel stop s).1, v.TrueTo source := by
  fun_induction values fuel stop s with
  | case1 stop s => exact List.forall_mem_nil _
  | case2 fuel stop s after equal => exact List.forall_mem_nil _
  | case3 fuel stop s v after equal comma more rest again ih =>
    have onward := (value_finds stands).onward
    have first := value_true stands
    rw [equal] at onward first
    rw [again] at ih
    exact List.forall_mem_cons.mpr ⟨first v rfl, ih onward.stands.take.stands⟩
  | case4 fuel stop s v after equal last =>
    have first := value_true stands
    rw [equal] at first
    exact List.forall_mem_singleton.mpr (first v rfl)

theorem propertyDecl_true {found : List Label} {stop : Position} {vs : List Value} (stands : s.Stands source)
    (named : s.peek.kind = .name) (labels : ∀ l ∈ found, l.TrueTo source) (values : ∀ v ∈ vs, v.TrueTo source) :
    (propertyDecl found s.peek stop vs).TrueTo source := by
  have text : s.peek.text = s.peek.lexeme := text_lexeme (by simp [named])
  refine ⟨?_, labels, values⟩
  change s.peek.range.Spells source s.peek.text
  rw [text]
  exact stands.token.spells

theorem headingOf_spelling (kinds : s.peek.kind ∈ [TokenKind.slash, .name, .ref, .pathRef]) :
    (headingOf s.peek).spelling = s.peek.lexeme := by
  simp only [List.mem_cons, List.not_mem_nil, or_false] at kinds
  rcases kinds with kind | kind | kind | kind <;> simp only [headingOf, kind, Heading.spelling]
  · exact (s.cursor.next_first.1 kind).symm
  · exact text_lexeme (by rw [kind]; decide)
  · exact refOfToken_spelling (.inl kind) s.cursor.next_fits
  · exact refOfToken_spelling (.inr kind) s.cursor.next_fits

theorem node_true (fuel : Nat) {found : List Label} (after : State) (stands : s.Stands source)
    (kinds : s.peek.kind ∈ [TokenKind.slash, .name, .ref, .pathRef]) (labels : ∀ l ∈ found, l.TrueTo source) :
    (node fuel found s.peek after).1.head.TrueTo source := by
  obtain ⟨same, heading⟩ := node_head fuel found s.peek after
  have place : (node fuel found s.peek after).1.head.nameRange = s.peek.range := by
    cases fuel with
    | zero => rfl
    | succ fuel =>
      rw [node]
      split <;> rfl
  refine ⟨?_, by rw [same]; exact labels, fun r member => ?_⟩
  · rw [place, heading, headingOf_spelling kinds]
    exact stands.token.spells
  · rw [heading] at member
    simp only [List.mem_cons, List.not_mem_nil, or_false] at kinds
    rcases kinds with kind | kind | kind | kind <;> simp only [headingOf, kind, Heading.ref?] at member <;> cases member
    · exact refOfToken_true stands (.inl kind)
    · exact refOfToken_true stands (.inr kind)

theorem delete_true (t : Token) (stands : s.Stands source) : ∀ d ∈ (delete t s).1, d.TrueTo source := by
  have spells := stands.token.spells
  have named : ∀ stop victim, victim.spelling = s.peek.lexeme → (∀ r, victim = .target r → r.TrueTo source) →
      ∀ d ∈ some (Delete.mk ⟨t.start, stop⟩ s.peek.range victim), d.TrueTo source := by
    intro stop victim same ref d member
    cases member
    refine ⟨?_, ref⟩
    dsimp only
    rw [same]
    exact spells
  have aimed : ∀ stop, s.peek.kind = .ref ∨ s.peek.kind = .pathRef →
      ∀ d ∈ some (Delete.mk ⟨t.start, stop⟩ s.peek.range (.target (refOfToken s.peek))), d.TrueTo source := by
    intro stop kind
    refine named stop _ (refOfToken_spelling kind s.cursor.next_fits) fun r same => ?_
    cases same
    exact refOfToken_true stands kind
  unfold delete
  dsimp only
  split
  · rename_i kind
    have text : s.peek.text = s.peek.lexeme := text_lexeme (by simp [kind])
    split
    · exact named _ _ text nofun
    · exact named _ _ text nofun
  · rename_i kind
    split
    · exact aimed _ (.inl kind)
    · simp
  · rename_i kind
    split
    · exact aimed _ (.inr kind)
    · simp
  · simp

structure TrueBlocks (source : Bytes) (fuel : Nat) : Prop where
  node : ∀ {found name s}, State.Stands source s → 2 * s.cursor.rest.length + 1 ≤ fuel →
    ∀ stmt ∈ statementsIn (node fuel found name s).1.body, stmt.TrueTo source
  body : ∀ {s}, State.Stands source s → 2 * s.cursor.rest.length + 2 ≤ fuel →
    ∀ stmt ∈ statementsIn (body fuel s).1, stmt.TrueTo source
  statement : ∀ {s}, State.Stands source s → 2 * s.cursor.rest.length + 1 ≤ fuel →
    ∀ stmt ∈ statementsIn (statement fuel s).1.toList, stmt.TrueTo source

theorem nodeBody_true {fuel : Nat} (blocks : TrueBlocks source fuel) {found : List Label} {name : Token}
    (stands : s.Stands source) (enough : 2 * s.cursor.rest.length + 1 ≤ fuel + 1) :
    ∀ stmt ∈ statementsIn (node (fuel + 1) found name s).1.body, stmt.TrueTo source := by
  rw [node]
  split
  · rename_i brace
    have shorter := s.take_shorter (by simp [brace])
    exact blocks.body stands.take.stands (by omega)
  · simp [statementsIn]

theorem body_true {fuel : Nat} (blocks : TrueBlocks source fuel) (stands : s.Stands source)
    (enough : 2 * s.cursor.rest.length + 2 ≤ fuel + 1) :
    ∀ stmt ∈ statementsIn (body (fuel + 1) s).1, stmt.TrueTo source := by
  rw [body]
  dsimp only
  split
  · simp [statementsIn]
  · simp [statementsIn]
  · rename_i close ends
    have read := (blocks_read source fuel).statement stands (by omega)
    have shorter := read.shorter ends
    intro stmt member
    rw [statementsIn_append] at member
    rcases List.mem_append.mp member with first | later
    · exact blocks.statement stands (by omega) stmt first
    · exact blocks.body read.onward.stands (by omega) stmt later

theorem declared_true {fuel : Nat} (blocks : TrueBlocks source fuel) {found : List Label} (stands : s.Stands source)
    (named : s.peek.kind = .name) (labels : ∀ l ∈ found, l.TrueTo source)
    (enough : 2 * s.take.cursor.rest.length + 1 ≤ fuel) :
    ∀ stmt ∈ statementsIn (declared fuel found s.peek s.take).1.toList, stmt.TrueTo source := by
  have taken := stands.take
  have single : ∀ p : PropertyDecl, p.TrueTo source →
      ∀ stmt ∈ statementsIn (some (Statement.property p)).toList, stmt.TrueTo source := by
    intro p spelled stmt member
    simp only [Option.toList, statementsIn, List.mem_singleton] at member
    exact member ▸ spelled
  unfold declared
  split
  · intro stmt member
    simp only [Option.toList, statementsIn, List.append_nil, List.mem_cons] at member
    rcases member with rfl | inner
    · exact node_true fuel s.take stands (by simp [named]) labels
    · exact blocks.node taken.stands enough stmt inner
  · refine single _ ?_
    rw [property_eq]
    exact propertyDecl_true stands named labels (values_true _ _ _ taken.stands.take.stands)
  · exact single _ (propertyDecl_true stands named labels (List.forall_mem_nil _))
  · exact single _ (propertyDecl_true stands named labels (List.forall_mem_nil _))

theorem statement_true {fuel : Nat} (blocks : TrueBlocks source fuel) (stands : s.Stands source)
    (enough : 2 * s.cursor.rest.length + 1 ≤ fuel + 1) :
    ∀ stmt ∈ statementsIn (statement (fuel + 1) s).1.toList, stmt.TrueTo source := by
  have taken := stands.take
  by_cases labelled : s.peek.kind = .label ∨ s.peek.kind = .name
  · have read := labels_onward s.rounds s stands
    rw [statement_eq labelled]
    unfold declaration
    split
    · rename_i named
      have shorter := State.take_shorter (s := (labels s.rounds s).2) (by simp [named])
      have left := read.left
      exact declared_true blocks read.stands named (labels_true s.rounds s stands) (by omega)
    · simp [statementsIn]
  rw [statement]
  dsimp only
  split
  · rename_i kind
    have shorter := s.take_shorter (by simp [kind])
    split
    · have spelled := delete_true s.peek taken.stands
      generalize delete s.peek s.take = read at spelled
      obtain ⟨found, after⟩ := read
      cases found with
      | none => simp [statementsIn]
      | some d =>
        intro stmt member
        simp only [Option.map_some, Option.toList, statementsIn, List.mem_singleton] at member
        exact member ▸ spelled d rfl
    · split
      · exact blocks.statement taken.stands (by omega)
      · simp [statementsIn]
  case h_3 kind => exact absurd (.inl kind) labelled
  case h_4 kind => exact absurd (.inr kind) labelled
  all_goals simp [statementsIn]

theorem blocks_true (source : Bytes) (fuel : Nat) : TrueBlocks source fuel := by
  induction fuel with
  | zero => exact ⟨fun _ enough => absurd enough (by omega), fun _ enough => absurd enough (by omega),
      fun _ enough => absurd enough (by omega)⟩
  | succ fuel ih => exact ⟨nodeBody_true ih, body_true ih, statement_true ih⟩

theorem reservation_true (count : Nat) (s : State) (stands : s.Stands source) :
    ∀ v ∈ (reservation count s).1, v.TrueTo source := by
  fun_induction reservation count s with
  | case1 s => exact List.forall_mem_nil _
  | case2 count s t kind more after equal ih =>
    rw [equal] at ih
    have cell := cell_true (cellOfToken_located stands (.inl kind))
    exact List.forall_mem_cons.mpr ⟨List.forall_mem_singleton.mpr cell, ih stands.take.stands⟩
  | case3 count s t kind a after equal more last again ih =>
    have taken := stands.take
    have cells := array_true t .w32 taken.stands
    have onward := (cells_reads s.take.rounds s.take taken.stands).onward
    change Onward source s.take (array t .w32 s.take).2 at onward
    rw [equal] at cells onward
    rw [again] at ih
    exact List.forall_mem_cons.mpr ⟨cells, ih onward.stands⟩
  | case4 count s t => exact List.forall_mem_nil _

theorem trimmed_suffix {text line : Bytes} (word : Bytes.dropLead? (utf8 "include")
    (Bytes.trimLeft Bytes.isSpaceOrTab (text.drop 1)) = some line) : Bytes.trimLeft Bytes.isSpaceOrTab line <:+ text := by
  refine (List.dropWhile_suffix _).trans ?_
  have lead : line <:+ Bytes.trimLeft Bytes.isSpaceOrTab (text.drop 1) := ⟨_, (Bytes.dropLead_eq_some_iff.mp word).symm⟩
  exact lead.trans ((List.dropWhile_suffix _).trans (List.drop_suffix _ _))

theorem includeLine_true {t : Token} {i : Include} (stands : t.Stands source) (hash : ∃ text, t.lexeme = 0x23 :: text)
    (found : includeLine t = some i) : i.TrueTo source := by
  obtain ⟨text, lexeme⟩ := hash
  have whole := stands.spells
  rw [lexeme] at whole
  obtain ⟨front, part, start⟩ := stands
  -- The part of the line from the opening delimiter on.
  have span : ∀ trimmed, trimmed <:+ t.lexeme → ∀ opening path closing rest, trimmed = opening :: (path ++ closing :: rest) →
      Range.Spells source ⟨t.start.after (t.lexeme.take (t.lexeme.length - trimmed.length)),
        (t.start.after (t.lexeme.take (t.lexeme.length - trimmed.length))).after (trimmed.take (path.length + 2))⟩
        (opening :: path ++ [closing]) := by
    intro trimmed tail opening path closing rest parts
    have split := List.suffix_iff_eq_append.mp tail
    generalize t.lexeme.take (t.lexeme.length - trimmed.length) = lead at split
    have word : trimmed.take (path.length + 2) = opening :: path ++ [closing] := by
      simp [parts, List.take_append]
    rw [word, start, ← Position.after_append, ← Position.after_append]
    refine Range.spells_part (List.IsPrefix.trans ⟨rest, ?_⟩ part)
    rw [← split, parts]
    simp
  unfold includeLine at found
  dsimp only at found
  split at found
  · cases found
  rename_i line word
  have tail := trimmed_suffix word
  generalize Bytes.trimLeft Bytes.isSpaceOrTab line = trimmed at found tail
  split at found
  · split at found
    · rename_i path rest cut
      cases found
      exact .line text whole (span _ tail _ _ _ _ (congrArg _ (Bytes.cut_eq cut)))
    · cases found
  · split at found
    · rename_i path rest cut
      cases found
      exact .line text whole (span _ tail _ _ _ _ (congrArg _ (Bytes.cut_eq cut)))
    · cases found
  · cases found

theorem State.Stands.pair (stands : s.Stands source) : ∃ gap,
    Range.Spells source ⟨s.peek.start, s.take.peek.stop⟩ (s.peek.lexeme ++ (gap ++ s.take.peek.lexeme)) := by
  obtain ⟨front, whole, start⟩ := stands.peek
  obtain ⟨gap, rest, begin, -⟩ := s.take.cursor.next_whole
  refine ⟨gap, ?_⟩
  have stop : s.take.peek.stop = Position.first.after (front ++ (s.peek.lexeme ++ (gap ++ s.take.peek.lexeme))) := by
    rw [Position.after_append, ← start, Position.after_append, Position.after_append]
    change Position.after s.take.cursor.next.1.start _ = _
    rw [begin, show s.take.cursor.position = s.peek.stop from s.place_take]
    rfl
  rw [start, stop]
  refine Range.spells_part ⟨s.take.cursor.next.2.rest, ?_⟩
  rw [whole, rest]
  simp [State.peek]

theorem includeDirective_true (stands : s.Stands source) (directive : s.peek.text = utf8 "/include/")
    (plain : s.peek.kind ≠ .label) : ∀ i ∈ (includeDirective s.peek s.take).1, i.TrueTo source := by
  unfold includeDirective
  dsimp only
  split
  · rename_i string
    intro i member
    cases member
    obtain ⟨gap, whole⟩ := stands.pair
    rw [← text_lexeme plain, directive] at whole
    have text : s.take.peek.text = s.take.peek.lexeme := text_lexeme (by simp [string])
    have quoted := s.take.cursor.next_first.2.2 string
    refine .directive _ s.take.peek.lexeme whole stands.take.stands.token.spells quoted ?_ rfl
    dsimp only
    rw [text]
  · simp

theorem item_true (fuel : Nat) (stands : s.Stands source) : ∀ i ∈ (item fuel s).1, i.TrueTo source := by
  induction fuel generalizing s with
  | zero => simp [item]
  | succ fuel ih =>
    have taken := stands.take
    by_cases heads : s.peek.kind ∈ [TokenKind.label, .name, .slash, .ref, .pathRef]
    · have read := labels_onward s.rounds s stands
      have labels := labels_true s.rounds s stands
      rw [item_eq heads]
      generalize Parser.labels s.rounds s = result at read labels
      obtain ⟨found, after⟩ := result
      unfold headed
      split
      · rename_i kinds
        intro i member
        cases member
        have next := read.stands.take
        have left := next.left
        refine ⟨node_true _ _ read.stands kinds labels, ?_⟩
        exact (blocks_true source _).node next.stands (by unfold State.fuel; omega)
      · simp
    rw [item]
    dsimp only
    split
    · rename_i kind
      split
      · rename_i i found
        intro j member
        cases member
        exact includeLine_true stands.token (s.cursor.next_first.2.1 kind) found
      · simp
    · rename_i kind
      split
      · intro i member
        cases member
        exact List.forall_mem_nil _
      · split
        · intro i member
          cases member
          exact reservation_true 2 s.take taken.stands
        · split
          · rename_i directive
            exact includeDirective_true stands directive (by simp [kind])
          · split
            · have spelled := delete_true s.peek taken.stands
              generalize delete s.peek s.take = read at spelled
              obtain ⟨found, after⟩ := read
              cases found with
              | none => simp
              | some d =>
                intro i member
                cases member
                exact spelled d rfl
            · split
              · exact ih taken.stands
              · simp
    case h_8 => simp
    case h_9 => simp
    all_goals
      rename_i kind
      exact absurd (by simp [kind]) heads

theorem items_true (fuel : Nat) (s : State) (stands : s.Stands source) : ∀ i ∈ (items fuel s).1, i.TrueTo source := by
  fun_induction items fuel s with
  | case1 s => exact List.forall_mem_nil _
  | case2 fuel s => exact List.forall_mem_nil _
  | case3 fuel s _ found after equal more last again ih =>
    have first := item_true s.rounds stands
    have read := item_reads s.rounds stands
    rw [equal] at first read
    rw [again] at ih
    intro i member
    rcases List.mem_append.mp member with one | other
    · exact first i (Option.mem_toList.mp one)
    · exact ih read.onward.stands i other

end Parser

-- Whatever the source, the spans of its declarations, labels, cells, references and includes spell them.
theorem Document.parse_spelled (source : Bytes) : ∀ i ∈ (parse source).items, i.TrueTo source :=
  Parser.items_true (Parser.State.start source).rounds _ (Parser.State.stands_start source)

def overlayText : Bytes := utf8 "x: &cpu \x7b n = <0x10 &y>; \x7d;"

theorem overlayText_spelled : ∃ i ∈ (Document.parse overlayText).items, i.range = ⟨⟨1, 1⟩, ⟨1, 28⟩⟩ ∧ i.TrueTo overlayText := by
  have there : ∃ i ∈ (Document.parse overlayText).items, i.range = ⟨⟨1, 1⟩, ⟨1, 28⟩⟩ := by decide +kernel
  obtain ⟨i, member, range⟩ := there
  exact ⟨i, member, range, Document.parse_spelled overlayText i member⟩

end DeviceTree
