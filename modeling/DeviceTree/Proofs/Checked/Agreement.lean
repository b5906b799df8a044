import DeviceTree.Proofs.Checked.Parser

namespace DeviceTree
namespace Checked

open DeviceTree.Parser (State)

variable {source : Bytes} {m : Machine} {s mid after : State}

-- A machine in the place of a state. At most the next token waits, and the lexer stands where that token ends.
structure Reads (source : Bytes) (m : Machine) (s : State) : Prop where
  text : m.source = source
  last : m.last = s.last
  errors : m.errors = s.errors
  inside : m.offset ≤ source.length
  stands : ∃ offset ≤ source.length, s.cursor = .ofOffset source offset
  place : (m.buffer = [] ∧ s.cursor = .ofOffset source m.offset) ∨
    (m.buffer = [s.peek] ∧ s.cursor.next.2 = .ofOffset source m.offset ∧ ∃ start, s.peek.Spans source start m.offset)

theorem reads_start (source : Bytes) : Reads source (.start source) (.start source) :=
  ⟨rfl, rfl, rfl, Nat.zero_le _, ⟨0, Nat.zero_le _, rfl⟩, .inl ⟨rfl, rfl⟩⟩

theorem peek_ok (reads : Reads source m s) : ∃ ahead, peek m = .ok (s.peek, ahead) ∧ Reads source ahead s ∧
    ahead.buffer = [s.peek] := by
  obtain ⟨rfl, last, errors, inside, stands, ⟨empty, here⟩ | ⟨waits, behind, spans⟩⟩ := reads
  · obtain ⟨start, stop, spans, found, behind⟩ := nextToken_ok inside
    rw [← here] at spans found behind
    refine ⟨{ m with offset := stop, buffer := [s.peek] }, ?_, ?_, rfl⟩
    · rw [peek, empty, found]
      rfl
    · exact ⟨rfl, last, errors, spans.inside.2, stands, .inr ⟨rfl, behind, start, spans⟩⟩
  · refine ⟨m, ?_, ⟨rfl, last, errors, inside, stands, .inr ⟨waits, behind, spans⟩⟩, waits⟩
    rw [peek, waits]

theorem take_ahead {t : Token} {ahead : Machine} (seen : peek m = .ok (t, ahead)) : take m = take ahead := by
  obtain ⟨text, offset, buffer, last, errors⟩ := m
  cases buffer with
  | cons t rest =>
    cases seen
    rfl
  | nil =>
    rw [peek] at seen
    rw [take]
    dsimp only at seen ⊢
    cases found : nextToken text offset with
    | error fault =>
      rw [found] at seen
      cases seen
    | ok r =>
      rw [found] at seen
      cases seen
      rfl

theorem take_ok (reads : Reads source m s) : ∃ next, take m = .ok (s.peek, next) ∧ Reads source next s.take ∧
    next.buffer = [] ∧ ∃ start, s.peek.Spans source start next.offset := by
  obtain ⟨ahead, seen, ⟨same, last, errors, inside, -, place⟩, waits⟩ := peek_ok reads
  obtain ⟨-, behind, start, spans⟩ := place.resolve_left fun none => by
    rw [waits] at none
    cases none.1
  have taken : take ahead = .ok (took s.peek { ahead with buffer := [] }) := by rw [take, waits]
  rw [take_ahead seen, taken]
  unfold took State.take
  by_cases ends : s.peek.kind = .eof
  · have ends' : s.cursor.next.1.kind = .eof := ends
    rw [if_pos ends]
    dsimp only
    rw [if_pos ends']
    exact ⟨_, rfl, ⟨same, last, errors, inside, ⟨_, inside, behind⟩, .inl ⟨rfl, behind⟩⟩, rfl, start, spans⟩
  · have ends' : ¬ s.cursor.next.1.kind = .eof := ends
    rw [if_neg ends]
    dsimp only
    rw [if_neg ends']
    exact ⟨_, rfl, ⟨same, rfl, errors, inside, ⟨_, inside, behind⟩, .inl ⟨rfl, behind⟩⟩, rfl, start, spans⟩

section Steps

variable {α β : Type}

-- In place of a state, the run of a machine gives the result and ends in place of the other state. No byte comes back.
structure Does (source : Bytes) (act : Run α) (s : State) (a : α) (after : State) : Prop where
  runs : ∀ m, Reads source m s → ∃ next, act m = .ok (a, next) ∧ Reads source next after
  onward : after.cursor.rest.length ≤ s.cursor.rest.length

variable {act : Run α} {next : α → Run β} {a : α} {b : β}

theorem Does.pure (a : α) (s : State) : Does source (pure a) s a s := ⟨fun m reads => ⟨m, rfl, reads⟩, le_rfl⟩

theorem Does.bind (one : Does source act s a mid) (two : Does source (next a) mid b after) : Does source (act >>= next) s b after where
  runs m reads := by
    obtain ⟨m', first, reads⟩ := one.runs m reads
    obtain ⟨m'', second, reads⟩ := two.runs m' reads
    refine ⟨m'', ?_, reads⟩
    change (act m).bind (fun r => next r.1 r.2) = _
    rw [first]
    exact second
  onward := two.onward.trans one.onward

theorem take_onward (s : State) : s.take.cursor.rest.length ≤ s.cursor.rest.length := by
  obtain ⟨gap, whole, -⟩ := s.cursor.next_whole
  change s.cursor.next.2.rest.length ≤ _
  rw [whole, List.length_append]
  exact Nat.le_add_left ..

theorem Does.peek {next : Token → Run β} (rest : Does source (next s.peek) s b after) :
    Does source (Checked.peek >>= next) s b after := by
  refine .bind ⟨fun m reads => ?_, le_rfl⟩ rest
  obtain ⟨ahead, seen, reads, -⟩ := peek_ok reads
  exact ⟨ahead, seen, reads⟩

theorem Does.take {next : Token → Run β} (rest : Does source (next s.peek) s.take b after) :
    Does source (Checked.take >>= next) s b after := by
  refine .bind ⟨fun m reads => ?_, take_onward s⟩ rest
  obtain ⟨m', taken, reads, -⟩ := take_ok reads
  exact ⟨m', taken, reads⟩

theorem Does.report {range : Range} {problem : Problem} {next : Unit → Run β}
    (rest : Does source (next ()) (s.report range problem) b after) : Does source (Checked.report range problem >>= next) s b after := by
  have first : Does source (Checked.report range problem) s () (s.report range problem) := by
    refine ⟨fun m reads => ⟨_, rfl, ?_⟩, le_rfl⟩
    exact ⟨reads.text, reads.last, congrArg (⟨range, problem⟩ :: ·) reads.errors, reads.inside, reads.stands,
      reads.place⟩
  exact .bind first rest

theorem Does.lift {find : Except Fault α} (found : find = .ok a) (rest : Does source (next a) s b after) :
    Does source (find >>= next : Run β) s b after := by
  refine .bind ⟨fun m reads => ⟨m, ?_, reads⟩, le_rfl⟩ rest
  rw [found]
  rfl

theorem Does.lastStop {next : Position → Run β} (rest : Does source (next s.last) s b after) :
    Does source (Checked.lastStop >>= next) s b after :=
  .bind ⟨fun m reads => ⟨m, reads.last ▸ rfl, reads⟩, le_rfl⟩ rest

def unread (s : State) : Nat := s.peek.lexeme.length + s.cursor.next.2.rest.length

theorem unread_le (s : State) : unread s ≤ s.cursor.rest.length := by
  obtain ⟨gap, whole, -⟩ := s.cursor.next_whole
  have size := congrArg List.length whole
  rw [List.length_append, List.length_append] at size
  unfold unread State.peek
  omega

def Passed (s after : State) : Prop := s.peek.kind ≠ .eof ∧ after.cursor.rest.length ≤ s.take.cursor.rest.length

theorem passed_take {kind : TokenKind} (seen : s.peek.kind = kind) (other : kind ≠ .eof) : Passed s s.take :=
  ⟨seen.trans_ne other, le_rfl⟩

theorem Passed.onward (passed : Passed s mid) (onward : after.cursor.rest.length ≤ mid.cursor.rest.length) : Passed s after :=
  ⟨passed.1, onward.trans passed.2⟩

theorem Passed.shorter (passed : Passed s after) : after.cursor.rest.length < s.cursor.rest.length :=
  Nat.lt_of_le_of_lt passed.2 (s.take_shorter passed.1)

theorem Passed.left (passed : Passed s after) : after.cursor.rest.length < unread s := by
  have width := List.length_pos_iff.mpr (s.cursor.next_some passed.1)
  exact Nat.lt_of_le_of_lt passed.2 (Nat.lt_add_of_pos_left width)

theorem Passed.unread_lt (passed : Passed s after) : unread after < unread s := (unread_le after).trans_lt passed.left

theorem unread_ahead (reads : Reads source m s) (waits : m.buffer = [s.peek]) : m.unread = unread s := by
  have behind : s.cursor.next.2 = .ofOffset source m.offset := (reads.place.resolve_left fun none => by
    rw [waits] at none
    cases none.1).2.1
  rw [Machine.unread, unread, waits, behind, reads.text, Cursor.rest_ofOffset, List.length_drop]
  rfl

variable {round : α → Run (α ⊕ β)}

theorem Does.stop (ends : Does source (round a) s (.inr b) after) : Does source (loop round a) s b after := by
  refine .peek ⟨fun m reads => ?_, ends.onward⟩
  obtain ⟨m', ran, reads⟩ := ends.runs m reads
  refine ⟨m', ?_, reads⟩
  rw [rounds, ran]
  rfl

theorem Does.again {c : α} (passed : Passed s mid) (goes : Does source (round a) s (.inl c) mid)
    (rest : Does source (loop round c) mid b after) : Does source (loop round a) s b after where
  runs m reads := by
    obtain ⟨ahead, seen, reads, waits⟩ := peek_ok reads
    obtain ⟨m', ran, inner⟩ := goes.runs ahead reads
    obtain ⟨ahead', seen', inner', waits'⟩ := peek_ok inner
    obtain ⟨m'', ends, reads'⟩ := rest.runs m' inner
    refine ⟨m'', ?_, reads'⟩
    have less : ahead'.unread < ahead.unread := by
      rw [unread_ahead inner' waits', unread_ahead reads waits]
      exact passed.unread_lt
    change (Checked.peek m).bind (fun r => rounds round a r.2) = _
    change (Checked.peek m').bind (fun r => rounds round c r.2) = _ at ends
    rw [seen'] at ends
    rw [seen]
    change rounds round a ahead = _
    rw [rounds, ran]
    change (Checked.peek m').bind (fun r => if r.2.unread < ahead.unread then rounds round c r.2 else throw .idle) = _
    rw [seen']
    exact (if_pos less).trans ends
  onward := rest.onward.trans goes.onward

end Steps

theorem semicolon_does (stop : Position) (s : State) :
    Does source (semicolon stop) s (Parser.semicolon stop s).1 (Parser.semicolon stop s).2 := by
  refine .peek ?_
  unfold Parser.semicolon
  split
  · exact .take (.pure _ _)
  · exact .report (.pure _ _)

theorem skipStatement_does {fuel : Nat} (enough : s.cursor.rest.length < fuel) :
    Does source skip s () (Parser.skipStatement fuel s) := by
  fun_induction Parser.skipStatement fuel s with
  | case1 => exact absurd enough (Nat.not_lt_zero _)
  | case2 fuel s kind =>
    refine .stop (.peek ?_)
    rw [kind]
    exact .pure _ _
  | case3 fuel s kind =>
    refine .stop (.peek ?_)
    rw [kind]
    exact .pure _ _
  | case4 fuel s kind =>
    refine .stop (.peek ?_)
    rw [kind]
    exact .take (.pure _ _)
  | case5 fuel s more close other ih =>
    have passed := passed_take rfl more
    have shorter := passed.shorter
    refine .again passed (.peek ?_) (ih (by omega))
    simp only
    exact .take (.pure _ _)

theorem skip_does (s : State) : Does source skip s () (Parser.skip s) := skipStatement_does s.rounds_enough

theorem labels_does {fuel : Nat} (enough : s.cursor.rest.length < fuel) (found : List Label) :
    Does source (labels found) s (found ++ (Parser.labels fuel s).1) (Parser.labels fuel s).2 := by
  fun_induction Parser.labels fuel s generalizing found with
  | case1 => exact absurd enough (Nat.not_lt_zero _)
  | case2 fuel s t label more after equal ih =>
    have passed := passed_take label (by decide)
    have shorter := passed.shorter
    have later := ih (by omega) (found ++ [⟨t.text, t.range⟩])
    rw [equal, ← List.append_cons] at later
    refine .again passed (.peek ?_) later
    rw [if_pos label]
    exact .take (.pure _ _)
  | case3 fuel s t other =>
    refine .stop (.peek ?_)
    rw [if_neg other, List.append_nil]
    exact .pure _ _

theorem pastGroup_onward (s : State) :
    (s.cursor.advance (Group.scan 1 s.cursor.rest).text.length).rest.length ≤ s.cursor.rest.length := by
  rw [Cursor.advance_rest, List.length_drop]
  exact Nat.sub_le _ _

theorem scanGroup_ok (reads : Reads source m s) (none : m.buffer = []) {t : Token} {start : Nat}
    (spans : t.Spans source start m.offset) (opens : t.lexeme = [0x28]) : ∃ next,
    scanGroup m = .ok ((0x28 :: (Group.scan 1 s.cursor.rest).text,
      ⟨t.start, t.start.after (0x28 :: (Group.scan 1 s.cursor.rest).text)⟩, (Group.scan 1 s.cursor.rest).closed), next) ∧
    Reads source next { s with cursor := s.cursor.advance (Group.scan 1 s.cursor.rest).text.length } := by
  obtain ⟨rfl, last, errors, inside, -, place⟩ := reads
  have here := (place.resolve_right fun waits => by
    rw [none] at waits
    cases waits.1).2
  have lexeme := spans.lexeme
  have one : m.offset = start + 1 := by
    have size := congrArg List.length lexeme
    rw [opens, List.length_drop, List.length_take, Nat.min_eq_left inside] at size
    exact Nat.eq_add_of_sub_eq spans.inside.1 size |>.trans (Nat.add_comm 1 start)
  rw [one] at here lexeme
  rw [opens, List.drop_take, Nat.add_sub_cancel_left] at lexeme
  obtain ⟨b, rest, whole⟩ := List.exists_cons_of_ne_nil fun empty : m.source.drop start = [] => by simp [empty] at lexeme
  rw [whole] at lexeme
  cases lexeme
  obtain ⟨longer, found, behind⟩ := byte_of_drop whole
  have left : s.cursor.rest = rest := by rw [here, Cursor.rest_ofOffset, behind]
  have front : 0x28 :: (Group.scan 1 rest).text <+: m.source.drop start := by
    rw [whole]
    exact List.cons_prefix_cons.mpr ⟨rfl, Group.scan_prefix 1 rest⟩
  have group := Token.spans_prefix (Nat.le_of_lt longer) front .lparen
  have stop := group.stop
  rw [List.length_cons, Nat.add_comm _ 1, ← Nat.add_assoc] at group stop
  have scanned := @group_ok m.source (start + 1) 1
  rw [behind] at scanned
  have ends : t.start.after (0x28 :: (Group.scan 1 rest).text) =
      .ofOffset m.source (start + 1 + (Group.scan 1 rest).text.length) := by
    rw [spans.place, ← stop]
    rfl
  rw [left, ends, here, Cursor.advance_ofOffset]
  refine ⟨{ m with offset := start + 1 + (Group.scan 1 rest).text.length }, ?_,
    ⟨rfl, last, errors, group.inside.2, ⟨_, group.inside.2, rfl⟩, .inl ⟨none, rfl⟩⟩⟩
  rw [scanGroup, none, one]
  dsimp only
  rw [found, scanned]
  dsimp only [bind, Except.bind]
  rw [if_pos rfl, slice_ok group.inside.1 group.inside.2, group.lexeme, positionAt_ok (Nat.le_of_lt longer), positionAt_ok group.inside.2,
    ← spans.place]
  rfl

theorem Does.group {β : Type} {b : β} {next : Bytes × Range × Bool → Run β} (opens : s.peek.kind = .lparen)
    (rest : Does source (next (0x28 :: (Group.scan 1 s.take.cursor.rest).text,
        ⟨s.peek.start, s.peek.start.after (0x28 :: (Group.scan 1 s.take.cursor.rest).text)⟩,
        (Group.scan 1 s.take.cursor.rest).closed))
      { s.take with cursor := s.take.cursor.advance (Group.scan 1 s.take.cursor.rest).text.length } b after) :
    Does source (do let _ ← Checked.take; let r ← scanGroup; next r) s b after := by
  have scanned : Does source (do let _ ← Checked.take; scanGroup) s (0x28 :: (Group.scan 1 s.take.cursor.rest).text,
      ⟨s.peek.start, s.peek.start.after (0x28 :: (Group.scan 1 s.take.cursor.rest).text)⟩,
      (Group.scan 1 s.take.cursor.rest).closed)
      { s.take with cursor := s.take.cursor.advance (Group.scan 1 s.take.cursor.rest).text.length } := by
    refine ⟨fun m reads => ?_, ?_⟩
    · obtain ⟨m', taken, reads, none, start, spans⟩ := take_ok reads
      obtain ⟨next, scanned, reads⟩ := scanGroup_ok reads none spans (s.cursor.next_mark.2.1 opens)
      refine ⟨next, ?_, reads⟩
      change (Checked.take m).bind (fun r => scanGroup r.2) = _
      rw [taken]
      exact scanned
    · exact (pastGroup_onward s.take).trans (take_onward s)
  have both := scanned.bind rest
  rwa [bind_assoc] at both

theorem cells_does {fuel : Nat} (enough : s.cursor.rest.length < fuel) (found : List Cell) :
    Does source (cells found) s (found ++ (Parser.cells fuel s).1, (Parser.cells fuel s).2.1) (Parser.cells fuel s).2.2 := by
  fun_induction Parser.cells fuel s generalizing found with
  | case1 => exact absurd enough (Nat.not_lt_zero _)
  | case2 fuel s t kind =>
    refine .stop (.peek ?_)
    rw [kind, List.append_nil]
    exact .take (.pure _ _)
  | case3 fuel s t kind more rest equal ih | case4 fuel s t kind more rest equal ih =>
    have passed := passed_take kind (by decide)
    have shorter := passed.shorter
    have later := ih (by omega) (found ++ [Parser.cellOfToken t])
    rw [equal, ← List.append_cons] at later
    refine .again passed (.peek ?_) later
    rw [kind]
    exact .take (.pure _ _)
  | case5 fuel s t kind more rest equal ih | case6 fuel s t kind more rest equal ih =>
    have passed := passed_take kind (by decide)
    have shorter := passed.shorter
    have later := ih (by omega) (found ++ [.ref (Parser.refOfToken t)])
    rw [equal, ← List.append_cons] at later
    refine .again passed (.peek ?_) later
    rw [kind]
    exact .take (.pure _ _)
  | case7 fuel s t kind opened group text range behind closed more rest equal ih =>
    have passed : Passed s behind := (passed_take kind (by decide)).onward (pastGroup_onward s.take)
    have shorter := passed.shorter
    have later := ih (Nat.lt_of_lt_of_le shorter (Nat.le_of_lt_succ enough)) (found ++ [.int range text (Expr.value? text)])
    rw [equal, ← List.append_cons] at later
    refine .again passed (.peek ?_) later
    rw [kind]
    refine .group kind ?_
    dsimp only
    rw [if_pos closed]
    exact .pure _ _
  | case8 fuel s t kind opened group text range behind closed more rest equal ih =>
    have passed : Passed s (behind.report range .unbalancedGroup) :=
      (passed_take kind (by decide)).onward (pastGroup_onward s.take)
    have shorter := passed.shorter
    have later := ih (Nat.lt_of_lt_of_le shorter (Nat.le_of_lt_succ enough)) (found ++ [.int range text none])
    rw [equal, ← List.append_cons] at later
    refine .again passed (.peek ?_) later
    rw [kind]
    refine .group kind ?_
    dsimp only
    rw [if_neg closed]
    exact .report (.pure _ _)
  | case9 fuel s t =>
    refine .stop (.peek ?_)
    rw [show s.peek = t from rfl]
    simp only
    rw [List.append_nil]
    refine .report ?_
    refine .lastStop ?_
    exact .pure _ _

theorem array_does (t : Token) (width : Width) (s : State) :
    Does source (array t width) s (Parser.array t width s).1 (Parser.array t width s).2 :=
  .bind (cells_does s.rounds_enough []) (.pure _ _)

theorem literal_ok (raw : Bytes) : literal raw = .ok (Parser.literal raw) := by
  rw [literal, Parser.literal]
  split
  · rfl
  · rename_i long
    rw [slice_ok (by omega) (Nat.sub_le _ _), List.drop_take, ← List.length_drop, ← List.dropLast_eq_take]
    rfl

-- Two bytes of a pair are there, because an even number of bytes is left.
theorem hexPairs_ok {text : Bytes} {offset : Nat} (even : (text.drop offset).length % 2 = 0) :
    hexPairs text offset = .ok (Parser.hexPairs (text.drop offset)) := by
  induction whole : text.drop offset using Parser.hexPairs.induct generalizing offset with
  | case1 =>
    rw [hexPairs, if_neg (ends_of_drop whole)]
    rfl
  | case2 b =>
    rw [whole] at even
    exact absurd even (by decide : ¬ 1 % 2 = 0)
  | case3 a b rest v read more good equal ih =>
    obtain ⟨inside, pair, behind⟩ := pair_of_drop whole
    rw [whole, List.length_cons, List.length_cons, Nat.add_assoc, Nat.add_mod_right, ← behind] at even
    rw [hexPairs, if_pos inside, pair]
    dsimp only [bind, Except.bind]
    rw [read, Parser.hexPairs, read]
    dsimp only
    rw [ih even behind]
    rfl
  | case4 a b rest bad =>
    obtain ⟨inside, pair, -⟩ := pair_of_drop whole
    rw [hexPairs, if_pos inside, pair]
    dsimp only [bind, Except.bind]
    rw [bad, Parser.hexPairs, bad]
    rfl

theorem byteElement_ok (text : Bytes) : byteElement text = .ok (Parser.byteElement text) := by
  rw [byteElement, Parser.byteElement]
  split
  · rename_i even
    exact hexPairs_ok even
  · rfl

theorem byteElements_does {fuel : Nat} (enough : s.cursor.rest.length < fuel) (found : Bytes) :
    Does source (byteElements found) s (found ++ (Parser.byteElements fuel s).1, (Parser.byteElements fuel s).2.1)
      (Parser.byteElements fuel s).2.2 := by
  fun_induction Parser.byteElements fuel s generalizing found with
  | case1 => exact absurd enough (Nat.not_lt_zero _)
  | case2 fuel s t kind =>
    refine .stop (.peek ?_)
    rw [kind, List.append_nil]
    exact .take (.pure _ _)
  | case3 fuel s t kind bytes good read next more rest equal ih =>
    have passed := passed_take kind (by decide)
    have shorter := passed.shorter
    have same : next.cursor = s.take.cursor := by cases good <;> rfl
    have later := ih (by rw [same]; omega) (found ++ bytes)
    rw [equal, List.append_assoc] at later
    refine .again (passed.onward (by rw [same])) (.peek ?_) later
    rw [kind]
    refine .take (.lift (byteElement_ok _) ?_)
    rw [read]
    cases good with
    | true => exact .pure _ _
    | false => exact .report (.pure _ _)
  | case4 fuel s t =>
    refine .stop (.peek ?_)
    rw [show s.peek = t from rfl]
    simp only
    rw [List.append_nil]
    refine .report ?_
    refine .lastStop ?_
    exact .pure _ _

theorem chosenWidth_does (s : State) : Does source chosenWidth s (Parser.chosenWidth s).1 (Parser.chosenWidth s).2 := by
  refine .peek ?_
  unfold Parser.chosenWidth
  split
  · refine .take ?_
    cases Parser.width? s.peek.text with
    | none => exact .report (.pure _ _)
    | some width => exact .pure _ _
  · exact .pure _ _

theorem wideArray_does (t : Token) (s : State) :
    Does source (wideArray t) s (Parser.wideArray t s).1 (Parser.wideArray t s).2 := by
  rw [Parser.wideArray_eq]
  refine .peek (.bind (chosenWidth_does s) (.peek ?_))
  by_cases opens : (Parser.chosenWidth s).2.peek.kind = .langle
  · rw [Parser.sizedArray_opened opens, if_pos opens]
    dsimp only
    exact .take (.bind (array_does _ _ _) (.pure _ _))
  · rw [Parser.sizedArray_missing opens, if_neg opens]
    exact .report (.pure _ _)

theorem value_does (s : State) : Does source value s (Parser.value s).1 (Parser.value s).2 ∧
    ((Parser.value s).1 = none ∨ Passed s (Parser.value s).2) := by
  have proceeds : ∀ {next : Token → Run (Option Value)} {v : Option Value} {after : State}, Passed s s.take →
      Does source (next s.peek) s.take v after → Does source (take >>= next) s v after ∧ (v = none ∨ Passed s after) :=
    fun passed rest => ⟨.take rest, .inr (passed.onward rest.onward)⟩
  refine And.imp_left .peek ?_
  unfold Parser.value
  dsimp only
  cases kind : s.peek.kind with
  | string =>
    dsimp only
    refine proceeds (passed_take kind (by decide)) (.lift (literal_ok _) ?_)
    cases Parser.literal s.peek.text with
    | mk text good =>
      cases good with
      | true => exact .pure _ _
      | false => exact .report (.pure _ _)
  | langle =>
    dsimp only
    refine proceeds (passed_take kind (by decide)) ?_
    exact .bind (array_does _ _ _) (.pure _ _)
  | lbracket =>
    dsimp only
    refine proceeds (passed_take kind (by decide)) ?_
    exact .bind (byteElements_does s.take.rounds_enough []) (.pure _ _)
  | ref | pathRef =>
    dsimp only
    refine proceeds (passed_take kind (by decide)) ?_
    exact .pure _ _
  | directive =>
    dsimp only
    split
    · exact proceeds (passed_take kind (by decide)) (wideArray_does _ _)
    · exact ⟨.pure _ _, .inl rfl⟩
  | error =>
    dsimp only
    refine proceeds (passed_take kind (by decide)) ?_
    refine .report ?_
    split
    · exact .lift (literal_ok _) (.pure _ _)
    · exact .pure _ _
  | _ => exact ⟨.pure _ _, .inl rfl⟩

theorem values_does {fuel : Nat} (enough : s.cursor.rest.length < fuel) (found : List Value) (stop : Position) :
    Does source (values (found, stop)) s (found ++ (Parser.values fuel stop s).1, (Parser.values fuel stop s).2.1)
      (Parser.values fuel stop s).2.2 := by
  fun_induction Parser.values fuel stop s generalizing found with
  | case1 => exact absurd enough (Nat.not_lt_zero _)
  | case2 fuel stop s mid read =>
    have first : Does source value s _ _ := (value_does s).1
    rw [read] at first
    rw [List.append_nil]
    exact .stop (.bind first (.peek (.report (.pure _ _))))
  | case3 fuel stop s v mid read comma more rest equal ih =>
    obtain ⟨first, none | passed⟩ := @value_does source s
    · rw [read] at none
      cases none
    · rw [read] at first passed
      have beyond := passed.onward (take_onward mid)
      have shorter := beyond.shorter
      have later := ih (by omega) (found ++ [v])
      rw [equal, ← List.append_cons] at later
      refine .again beyond (.bind first (.peek ?_)) later
      rw [if_pos comma]
      exact .take (.pure _ _)
  | case4 fuel stop s v mid read other =>
    have first : Does source value s _ _ := (value_does s).1
    rw [read] at first
    refine .stop (.bind first (.peek ?_))
    rw [if_neg other]
    exact .pure _ _

theorem skipLine_does {fuel : Nat} (enough : s.cursor.rest.length < fuel) (stop : Position) :
    Does source (skipLine stop) s (Parser.skipLine fuel stop s).1 (Parser.skipLine fuel stop s).2 := by
  fun_induction Parser.skipLine fuel stop s with
  | case1 => exact absurd enough (Nat.not_lt_zero _)
  | case2 fuel stop s t ends =>
    refine .stop (.peek ?_)
    rw [if_pos ends]
    exact .pure _ _
  | case3 fuel stop s t more kind =>
    refine .stop (.peek ?_)
    rw [if_neg more]
    refine .take ?_
    rw [if_pos kind]
    exact .pure _ _
  | case4 fuel stop s t more other ih =>
    have passed := passed_take rfl fun ends => more (by rw [decide_eq_true ends]; rfl)
    have shorter := passed.shorter
    refine .again passed (.peek ?_) (ih (by omega))
    rw [if_neg more]
    refine .take ?_
    rw [if_neg other]
    exact .pure _ _

theorem property_does (found : List Label) (name : Token) (s : State) :
    Does source (property found name) s (Parser.property found name s).1 (Parser.property found name s).2 := by
  refine .bind (values_does s.rounds_enough [] name.stop) (.peek ?_)
  unfold Parser.property
  dsimp only
  split
  · exact .take (.pure _ _)
  · refine .report (.bind (skipLine_does (State.rounds_enough _) _) (.pure _ _))

theorem bareProperty_does (found : List Label) (name : Token) (s : State) :
    Does source (bareProperty found name) s (Parser.bareProperty found name s).1 (Parser.bareProperty found name s).2 := by
  refine .report (.peek ?_)
  unfold Parser.bareProperty
  dsimp only
  split
  · exact .bind (skip_does _) (.pure _ _)
  · exact .pure _ _

theorem delete_does (t : Token) (s : State) :
    Does source (delete t) s (Parser.delete t s).1 (Parser.delete t s).2 := by
  refine .peek ?_
  unfold Parser.delete
  dsimp only
  cases s.peek.kind with
  | name => exact .take (.bind (semicolon_does _ _) (.pure _ _))
  | ref | pathRef =>
    refine .take ?_
    dsimp only
    split
    · exact .bind (semicolon_does _ _) (.pure _ _)
    · exact .report (.bind (skip_does _) (.pure _ _))
  | _ => exact .report (.bind (skip_does _) (.pure _ _))

end Checked
end DeviceTree
