import DeviceTree.Proofs.Checked.Agreement

namespace DeviceTree
namespace Checked

open DeviceTree.Parser (State)

variable {source : Bytes} {m : Machine} {s mid after : State}

section Descent

variable {α : Type} {production : Run α → Run α} {a : α}

-- What a production that began with `limit` bytes to read calls for itself.
def within (production : Run α → Run α) (limit : Nat) : Run α := fun m => do
  let (_, ahead) ← peek m
  if ahead.unread < limit then calls production ahead else throw .idle

theorem Does.descend (rest : Does source (production (within production (unread s))) s a after) :
    Does source (descend production) s a after := by
  refine ⟨fun m reads => ?_, rest.onward⟩
  obtain ⟨ahead, seen, reads, waits⟩ := peek_ok reads
  obtain ⟨next, ran, reads'⟩ := rest.runs ahead reads
  refine ⟨next, ?_, reads'⟩
  change (Checked.peek m).bind (fun r => calls production r.2) = _
  rw [seen]
  change calls production ahead = _
  rw [calls, unread_ahead reads waits]
  exact ran

theorem Does.within {limit : Nat} (fewer : unread s < limit) (rest : Does source (Checked.descend production) s a after) :
    Does source (within production limit) s a after := by
  refine ⟨fun m reads => ?_, rest.onward⟩
  obtain ⟨ahead, seen, inner, waits⟩ := peek_ok reads
  obtain ⟨next, ran, reads'⟩ := rest.runs m reads
  refine ⟨next, ?_, reads'⟩
  change (Checked.peek m).bind (fun r => calls production r.2) = _ at ran
  change (Checked.peek m).bind (fun r => if r.2.unread < limit then calls production r.2 else throw .idle) = _
  rw [seen] at ran ⊢
  change (if ahead.unread < limit then calls production ahead else throw .idle) = _
  rw [unread_ahead inner waits, if_pos fewer]
  exact ran

end Descent

theorem peek_ne {m m' : Machine} (reads : Reads source m s) (reads' : Reads source m' after) (passed : Passed s after) :
    after.peek ≠ s.peek := by
  obtain ⟨offset, inside, here⟩ := reads.stands
  obtain ⟨offset', inside', here'⟩ := reads'.stands
  obtain ⟨stop, spans, behind⟩ := Cursor.next_ofOffset source inside
  obtain ⟨stop', spans', -⟩ := Cursor.next_ofOffset source inside'
  rw [← here] at spans behind
  rw [← here'] at spans'
  have proper : _ < stop := spans.proper (s.cursor.next_some passed.1)
  have further : stop ≤ offset' := by
    have left := passed.2
    change after.cursor.rest.length ≤ s.cursor.next.2.rest.length at left
    rw [here', behind, Cursor.rest_ofOffset, Cursor.rest_ofOffset, List.length_drop, List.length_drop] at left
    have bound := spans.inside.2
    omega
  intro same
  have start := spans.place
  have start' := spans'.place
  rw [show after.cursor.next.1 = s.cursor.next.1 from same, start] at start'
  have found := Position.toOffset_ofOffset (spans.inside.1.trans spans.inside.2)
  rw [start', Position.toOffset_ofOffset (spans'.inside.1.trans spans'.inside.2)] at found
  have equal := Option.some.inj found
  omega

theorem Does.settle {α β : Type} {act : Run (Option α)} {a : Option α} {b : β} {next : List α → Run β}
    (one : Does source act s a mid) (passed : Passed s mid) (found : List α)
    (rest : Does source (next (found ++ a.toList)) mid b after) :
    Does source (do let a ← act; let found ← Checked.settle s.peek found a; next found) s b after := by
  have both : Does source (do let a ← act; Checked.settle s.peek found a) s (found ++ a.toList) mid := by
    refine ⟨fun m reads => ?_, one.onward⟩
    obtain ⟨m', ran, reads'⟩ := one.runs m reads
    change ∃ next, (act m).bind (fun r => Checked.settle s.peek found r.1 r.2) = _ ∧ _
    rw [ran]
    cases a with
    | some x => exact ⟨m', rfl, reads'⟩
    | none =>
      obtain ⟨ahead, seen, inner, -⟩ := peek_ok reads'
      refine ⟨ahead, ?_, inner⟩
      change (Checked.peek m').bind (fun r => (if r.1 = s.peek then _ else _ : Run (List α)) r.2) = _
      rw [seen]
      change (if mid.peek = s.peek then _ else _ : Run (List α)) ahead = _
      rw [if_neg (peek_ne reads reads' passed), Option.toList_none, List.append_nil]
      rfl
  have whole := both.bind rest
  rwa [bind_assoc] at whole

def Took (s after : State) : Prop := s.peek.kind ≠ .eof → Passed s after

theorem Does.proceeds {α : Type} {a : α} {next : Token → Run α} (rest : Does source (next s.peek) s.take a after) :
    Does source (Checked.take >>= next) s a after ∧ Took s after :=
  ⟨.take rest, fun more => (passed_take rfl more).onward rest.onward⟩

-- A production reads a statement as the parser does.
def Renders (source : Bytes) (self : Run (Option Statement)) (fuel : Nat) (s : State) : Prop :=
  Does source self s (Parser.statement fuel s).1 (Parser.statement fuel s).2 ∧ Took s (Parser.statement fuel s).2

theorem labels_passed (label : s.peek.kind = .label) : Passed s (Parser.labels s.rounds s).2 := by
  have passed := passed_take label (by decide)
  have behind := (@labels_does [] _ _ passed.shorter []).onward
  rw [State.rounds, Parser.labels, if_pos label]
  exact passed.onward behind

section Blocks

variable {self : Run (Option Statement)} {limit fuel : Nat}
  (renders : ∀ k ≤ fuel, ∀ s : State, s.cursor.rest.length < limit → 2 * s.cursor.rest.length + 1 ≤ k → Renders source self k s)

include renders

theorem body_does (inside : s.cursor.rest.length < limit) {k : Nat} (below : k ≤ fuel)
    (enough : 2 * s.cursor.rest.length + 2 ≤ k) (found : List Statement) :
    Does source (body self found) s (found ++ (Parser.body k s).1, (Parser.body k s).2.1, (Parser.body k s).2.2.1)
      (Parser.body k s).2.2.2 := by
  induction k generalizing s found with
  | zero => omega
  | succ k ih =>
    rw [Parser.body]
    dsimp only
    split
    · rename_i kind
      refine .stop (.peek ?_)
      rw [kind, List.append_nil]
      exact .take (.bind (semicolon_does _ _) (.pure _ _))
    · rename_i kind
      refine .stop (.peek ?_)
      rw [kind, List.append_nil]
      exact .report (.pure _ _)
    · rename_i close more
      obtain ⟨first, passes⟩ := renders k (by omega) s inside (by omega)
      have passed := passes more
      have shorter := passed.shorter
      have later := ih (shorter.trans inside) (by omega) (by omega) (found ++ (Parser.statement k s).1.toList)
      rw [List.append_assoc] at later
      refine .again passed (.peek ?_) later
      simp only
      exact first.settle passed found (.pure _ _)

theorem node_does (inside : s.cursor.rest.length < limit) {k : Nat} (below : k ≤ fuel)
    (enough : 2 * s.cursor.rest.length + 1 ≤ k) (found : List Label) (name : Token) :
    Does source (node self found name) s (Parser.node k found name s).1 (Parser.node k found name s).2 := by
  cases k with
  | zero => omega
  | succ k =>
    refine .peek ?_
    rw [Parser.node]
    dsimp only
    split
    · rename_i brace
      have shorter := (passed_take brace (by decide)).shorter
      refine .take (.bind (body_does renders (shorter.trans inside) (Nat.le_of_succ_le below) (by omega) []) ?_)
      exact .pure _ _
    · refine .report (.bind (skip_does _) ?_)
      exact .pure _ _

theorem declared_does (inside : s.cursor.rest.length < limit) {k : Nat} (below : k ≤ fuel)
    (enough : 2 * s.cursor.rest.length + 1 ≤ k) (found : List Label) (name : Token) :
    Does source (declared self found name) s (Parser.declared k found name s).1 (Parser.declared k found name s).2 := by
  refine .peek ?_
  unfold Parser.declared
  cases s.peek.kind with
  | lbrace => exact .bind (node_does renders inside below enough found name) (.pure _ _)
  | equal =>
    dsimp only
    exact .take (.bind (property_does found name _) (.pure _ _))
  | semicolon => exact .take (.pure _ _)
  | _ => exact .bind (bareProperty_does found name s) (.pure _ _)

theorem declaration_does (inside : s.take.cursor.rest.length < limit) {k : Nat} (below : k ≤ fuel)
    (enough : 2 * s.cursor.rest.length ≤ k) (found : List Label) :
    Does source (declaration self found) s (Parser.declaration k found s).1 (Parser.declaration k found s).2 ∧
      (s.peek.kind = .name → Took s (Parser.declaration k found s).2) := by
  refine And.imp_left .peek ?_
  unfold Parser.declaration
  by_cases name : s.peek.kind = .name
  · have shorter := (passed_take name (by decide)).shorter
    rw [if_pos name, if_pos name]
    refine And.imp_right (fun took _ => took) (Does.proceeds ?_)
    exact declared_does renders inside below (by omega) found s.peek
  · rw [if_neg name, if_neg name]
    exact ⟨.report (.bind (skip_does _) (.pure _ _)), fun named => absurd named name⟩

end Blocks

theorem statement_does {fuel : Nat} (enough : 2 * s.cursor.rest.length + 1 ≤ fuel) : Renders source statement fuel s := by
  induction fuel using Nat.strongRecOn generalizing s with
  | ind fuel ih =>
    obtain ⟨k, rfl⟩ : ∃ k, fuel = k + 1 := ⟨fuel - 1, by omega⟩
    -- What is called from here begins behind a token at least.
    have inner : ∀ j ≤ k, ∀ t : State, t.cursor.rest.length < unread s → 2 * t.cursor.rest.length + 1 ≤ j →
        Renders source (within statementBy (unread s)) j t := by
      intro j below t inside enough
      exact (ih j (Nat.lt_succ_of_le below) enough).imp_left (.within ((unread_le t).trans_lt inside))
    refine And.imp_left .descend ?_
    refine And.imp_left .peek ?_
    by_cases labelled : s.peek.kind = .label ∨ s.peek.kind = .name
    · rw [Parser.statement_eq labelled]
      have begins : Does source (do let found ← labels []; declaration (within statementBy (unread s)) found) s
          (Parser.declaration k (Parser.labels s.rounds s).1 (Parser.labels s.rounds s).2).1
          (Parser.declaration k (Parser.labels s.rounds s).1 (Parser.labels s.rounds s).2).2 ∧
          Took s (Parser.declaration k (Parser.labels s.rounds s).1 (Parser.labels s.rounds s).2).2 := by
        have first : Does source (labels []) s _ _ := labels_does s.rounds_enough []
        rw [List.nil_append] at first
        by_cases label : s.peek.kind = .label
        · have passed := labels_passed label
          have shorter := passed.shorter
          obtain ⟨rest, -⟩ := declaration_does inner ((take_onward _).trans_lt passed.left) le_rfl (by omega)
            (Parser.labels s.rounds s).1
          exact ⟨.bind first rest, fun _ => passed.onward rest.onward⟩
        · have name := labelled.resolve_left label
          have passed := passed_take name (by decide)
          rw [Parser.labels_none label] at first ⊢
          obtain ⟨rest, took⟩ := declaration_does inner passed.left le_rfl (by omega) []
          exact ⟨.bind first rest, took name⟩
      rcases labelled with kind | kind
      · rw [kind]
        exact begins
      · rw [kind]
        exact begins
    · unfold Parser.statement
      dsimp only
      cases kind : s.peek.kind with
      | directive =>
        have passed := passed_take kind (by decide)
        have shorter := passed.shorter
        refine Does.proceeds ?_
        dsimp only
        split
        · exact .bind (delete_does _ _) (.pure _ _)
        · split
          · exact (inner k le_rfl s.take passed.left (by omega)).1
          · exact .report (.bind (skip_does _) (.pure _ _))
      | label => exact absurd (.inl kind) labelled
      | name => exact absurd (.inr kind) labelled
      | ref | pathRef =>
        refine Does.proceeds ?_
        exact .report (.bind (skip_does _) (.pure _ _))
      | _ =>
        refine Does.proceeds ?_
        exact .report (.pure _ _)

theorem pathRange_ok {t : Token} {start stop : Nat} (spans : t.Spans source start stop) {trimmed : Bytes}
    (tail : trimmed <:+ t.lexeme) {path : Bytes} (short : path.length + 2 ≤ trimmed.length) :
    pathRange source t (t.lexeme.length - trimmed.length) path =
      .ok ⟨t.start.after (t.lexeme.take (t.lexeme.length - trimmed.length)),
        (t.start.after (t.lexeme.take (t.lexeme.length - trimmed.length))).after (trimmed.take (path.length + 2))⟩ := by
  have base : offsetOf source t.start = .ok start := by
    rw [spans.place]
    exact offsetOf_ok (spans.inside.1.trans spans.inside.2)
  have lead := tail.length_le
  obtain ⟨inside, first⟩ := spans.inner (Nat.sub_le t.lexeme.length trimmed.length)
  obtain ⟨inside', last⟩ := spans.inner (show t.lexeme.length - trimmed.length + (path.length + 2) ≤ t.lexeme.length by omega)
  rw [List.take_add, ← List.suffix_iff_eq_drop.mp tail, Position.after_append] at last
  rw [pathRange, base]
  dsimp only [bind, Except.bind]
  rw [Nat.add_assoc (start + _), Nat.add_assoc start, positionAt_ok inside, positionAt_ok inside', first, last]
  rfl

theorem includeLine_ok {t : Token} {start stop : Nat} (spans : t.Spans source start stop) (filled : t.lexeme ≠ []) :
    includeLine t source = .ok (Parser.includeLine t) := by
  have closed : ∀ {closer : UInt8} {rest path after : Bytes}, Bytes.cut closer rest = some (path, after) → ∀ opening : UInt8,
      path.length + 2 ≤ (opening :: rest).length := by
    intro closer rest path after cut opening
    rw [Bytes.cut_eq cut, List.length_cons, List.length_append, List.length_cons]
    omega
  unfold includeLine Parser.includeLine
  dsimp only
  rw [slice_rest (List.length_pos_iff.mpr filled)]
  dsimp only [bind, Except.bind]
  cases word : Bytes.dropLead? (utf8 "include") (Bytes.trimLeft Bytes.isSpaceOrTab (t.lexeme.drop 1)) with
  | none => rfl
  | some line =>
    have tail := Parser.trimmed_suffix word
    dsimp only
    generalize Bytes.trimLeft Bytes.isSpaceOrTab line = trimmed at tail ⊢
    cases trimmed with
    | nil => rfl
    | cons opening rest =>
      by_cases quote : opening = 0x22
      · subst quote
        cases cut : Bytes.cut 0x22 rest with
        | none =>
          simp only [cut]
          rfl
        | some parts =>
          obtain ⟨path, after⟩ := parts
          simp only [cut, pathRange_ok spans tail (closed cut 0x22)]
          rfl
      · by_cases angle : opening = 0x3c
        · subst angle
          cases cut : Bytes.cut 0x3e rest with
          | none =>
            simp only [cut]
            rfl
          | some parts =>
            obtain ⟨path, after⟩ := parts
            simp only [cut, pathRange_ok spans tail (closed cut 0x3c)]
            rfl
        · simp only [List.cons.injEq, quote, angle, false_and, imp_self, implies_true]
          rfl

theorem Does.line {β : Type} {b : β} {next : Option Include → Run β} (more : s.peek.kind ≠ .eof)
    (rest : Does source (next (Parser.includeLine s.peek)) s.take b after) :
    Does source (do let _ ← Checked.take; let i ← lookup (includeLine s.peek); next i) s b after := by
  have found : Does source (do let _ ← Checked.take; lookup (includeLine s.peek)) s (Parser.includeLine s.peek) s.take := by
    refine ⟨fun m reads => ?_, take_onward s⟩
    obtain ⟨m', taken, reads, -, start, spans⟩ := take_ok reads
    refine ⟨m', ?_, reads⟩
    change (Checked.take m).bind (fun r => lookup (includeLine s.peek) r.2) = _
    rw [taken]
    change (includeLine s.peek m'.source).bind _ = _
    rw [reads.text, includeLine_ok spans (s.cursor.next_some more)]
    rfl
  have both := found.bind rest
  rwa [bind_assoc] at both

theorem reservation_does (count : Nat) (found : List Value) :
    Does source (reservation (count, found)) s (found ++ (Parser.reservation count s).1) (Parser.reservation count s).2 := by
  induction count generalizing s found with
  | zero =>
    refine .stop ?_
    rw [Parser.reservation, List.append_nil]
    exact .pure _ _
  | succ count ih =>
    rw [Parser.reservation]
    dsimp only
    split
    · rename_i kind
      have later := ih (s := s.take) (found ++ [.array ⟨s.peek.range, .w64, [Parser.cellOfToken s.peek]⟩])
      rw [← List.append_cons] at later
      refine .again (passed_take kind (by decide)) (.peek ?_) later
      rw [kind]
      exact .take (.pure _ _)
    · rename_i kind
      have read : Does source (array s.peek .w32) s.take _ _ := array_does s.peek .w32 s.take
      have later := ih (s := (Parser.array s.peek .w32 s.take).2) (found ++ [.array (Parser.array s.peek .w32 s.take).1])
      rw [← List.append_cons] at later
      refine .again ((passed_take kind (by decide)).onward read.onward) (.peek ?_) later
      rw [kind]
      exact .take (.bind read (.pure _ _))
    · refine .stop (.peek ?_)
      simp only
      rw [List.append_nil]
      exact .pure _ _

theorem headed_does (found : List Label) (s : State) :
    Does source (headed found) s (Parser.headed found s).1 (Parser.headed found s).2 ∧
      (s.peek.kind ∈ [.slash, .name, .ref, .pathRef] → Took s (Parser.headed found s).2) := by
  have every : ∀ k ≤ s.fuel, ∀ t : State, t.cursor.rest.length < s.cursor.rest.length + 1 →
      2 * t.cursor.rest.length + 1 ≤ k → Renders source statement k t := fun _ _ _ _ enough => statement_does enough
  refine And.imp_left .peek ?_
  unfold Parser.headed
  by_cases heads : s.peek.kind ∈ [.slash, .name, .ref, .pathRef]
  · rw [if_pos heads]
    have passed : Passed s s.take := passed_take rfl fun ends => by simp [ends] at heads
    have shorter := passed.shorter
    have rest : Does source (do let n ← node statement found s.peek; pure (some (Item.node n))) s.take
        (some (Item.node (Parser.node s.fuel found s.peek s.take).1)) (Parser.node s.fuel found s.peek s.take).2 :=
      .bind (node_does every (by omega) le_rfl (by rw [State.fuel]; omega) found s.peek) (.pure _ _)
    refine ⟨?_, fun _ _ => passed.onward rest.onward⟩
    simp only [List.mem_cons, List.not_mem_nil, or_false] at heads
    rcases heads with kind | kind | kind | kind <;>
    · rw [kind]
      exact .take rest
  · rw [if_neg heads]
    refine ⟨?_, fun named => absurd named heads⟩
    simp only [List.mem_cons, List.not_mem_nil, or_false, not_or] at heads
    obtain ⟨slash, name, ref, path⟩ := heads
    split
    · contradiction
    · contradiction
    · contradiction
    · contradiction
    · exact .report (.pure _ _)

theorem item_does {fuel : Nat} (enough : s.cursor.rest.length < fuel) :
    Does source item s (Parser.item fuel s).1 (Parser.item fuel s).2 ∧ Took s (Parser.item fuel s).2 := by
  induction fuel generalizing s with
  | zero => exact absurd enough (Nat.not_lt_zero _)
  | succ fuel ih =>
    refine And.imp_left .descend ?_
    refine And.imp_left .peek ?_
    by_cases heads : s.peek.kind ∈ [.label, .name, .slash, .ref, .pathRef]
    · rw [Parser.item_eq heads]
      have begins : Does source (do let found ← labels []; headed found) s
          (Parser.headed (Parser.labels s.rounds s).1 (Parser.labels s.rounds s).2).1
          (Parser.headed (Parser.labels s.rounds s).1 (Parser.labels s.rounds s).2).2 ∧
          Took s (Parser.headed (Parser.labels s.rounds s).1 (Parser.labels s.rounds s).2).2 := by
        have first : Does source (labels []) s _ _ := labels_does s.rounds_enough []
        rw [List.nil_append] at first
        obtain ⟨rest, took⟩ := @headed_does source (Parser.labels s.rounds s).1 (Parser.labels s.rounds s).2
        refine ⟨.bind first rest, ?_⟩
        by_cases label : s.peek.kind = .label
        · exact fun _ => (labels_passed label).onward rest.onward
        · rw [Parser.labels_none label] at took ⊢
          exact took (by simpa [label, or_left_comm] using heads)
      simp only [List.mem_cons, List.not_mem_nil, or_false] at heads
      rcases heads with kind | kind | kind | kind | kind <;>
      · rw [kind]
        exact begins
    · unfold Parser.item
      dsimp only
      cases kind : s.peek.kind with
      | label | name | slash | ref | pathRef => exact absurd (by rw [kind]; decide) heads
      | preproc =>
        have passed := passed_take kind (by decide)
        dsimp only
        cases found : Parser.includeLine s.peek with
        | some i =>
          refine ⟨.line passed.1 ?_, fun _ => passed⟩
          rw [found]
          exact .pure _ _
        | none =>
          refine ⟨.line passed.1 ?_, fun _ => passed⟩
          rw [found]
          exact .report (.pure _ _)
      | directive =>
        have passed := passed_take kind (by decide)
        have shorter := passed.shorter
        refine Does.proceeds ?_
        dsimp only
        split
        · exact .bind (semicolon_does _ _) (.pure _ _)
        · split
          · exact .bind (reservation_does 2 []) (.lastStop (.bind (semicolon_does _ _) (.pure _ _)))
          · split
            · refine .peek ?_
              unfold Parser.includeDirective
              dsimp only
              split
              · exact .take (.lift (literal_ok _) (.pure _ _))
              · exact .report (.pure _ _)
            · split
              · exact .bind (delete_does _ _) (.pure _ _)
              · split
                · exact .within ((unread_le _).trans_lt passed.left) (ih (by omega)).1
                · exact .report (.bind (skip_does _) (.pure _ _))
      | _ =>
        refine Does.proceeds ?_
        exact .report (.pure _ _)

theorem items_does {fuel : Nat} (enough : s.cursor.rest.length < fuel) (found : List Item) :
    Does source (items found) s (found ++ (Parser.items fuel s).1) (Parser.items fuel s).2 := by
  induction fuel generalizing s found with
  | zero => exact absurd enough (Nat.not_lt_zero _)
  | succ fuel ih =>
    rw [Parser.items]
    dsimp only
    split
    · rename_i ends
      refine .stop (.peek ?_)
      rw [if_pos ends, List.append_nil]
      exact .pure _ _
    · rename_i more
      obtain ⟨first, took⟩ := @item_does source _ _ s.rounds_enough
      have passed := took more
      have shorter := passed.shorter
      have later := ih (s := (Parser.item s.rounds s).2) (by omega) (found ++ (Parser.item s.rounds s).1.toList)
      rw [List.append_assoc] at later
      refine .again passed (.peek ?_) later
      rw [if_neg more]
      exact first.settle passed found (.pure _ _)

theorem parse_total (source : Bytes) : parse source = .ok (Document.parse source) := by
  have whole : Does source (items []) (.start source) _ _ := items_does (State.start source).rounds_enough []
  obtain ⟨m, ran, reads⟩ := whole.runs _ (reads_start source)
  rw [parse, ran]
  change Except.ok (Document.mk _ m.errors.reverse) = _
  rw [reads.errors]
  rfl

end Checked
end DeviceTree
