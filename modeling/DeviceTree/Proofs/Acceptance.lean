import DeviceTree.Proofs.Grammar

namespace DeviceTree
namespace Parser
open Grammar

def Block (ts : List Terminal) : Prop :=
  ∃ parts : List (List Terminal), ts = parts.flatten ++ [.mark .rbrace, .mark .semicolon] ∧ ∀ part ∈ parts, IsStatement part

def Braced (ts : List Terminal) : Prop := ∃ rest, ts = .mark .lbrace :: rest ∧ Block rest

def Declared (ts : List Terminal) : Prop :=
  ts = [.mark .semicolon] ∨ Braced ts ∨ ∃ rest, ts = .mark .equal :: rest ∧ Assigned rest

def Declaration (ts : List Terminal) : Prop := ∃ name rest, ts = .name name :: rest ∧ Declared rest

def Labelled (language : List Terminal → Prop) (ts : List Terminal) : Prop :=
  ∃ ls more, ts = ls ++ more ∧ IsLabels ls ∧ language more

def Directed (name : Bytes) (ts : List Terminal) : Prop :=
  name = utf8 "/delete-node/" ∧ (∃ victim, ts = [victim, .mark .semicolon] ∧ IsNode victim) ∨
    name = utf8 "/delete-property/" ∧ (∃ property, ts = [.name property, .mark .semicolon]) ∨
    name = utf8 "/omit-if-no-ref/" ∧ IsStatement ts

theorem isStatement_iff {ts : List Terminal} : IsStatement ts ↔
    ts = [.preproc] ∨ (∃ name rest, ts = .directive name :: rest ∧ Directed name rest) ∨ Labelled Declaration ts := by
  constructor
  · intro statement
    cases statement with
    | preproc => exact .inl rfl
    | deleteNode node => exact .inr (.inl ⟨_, _, rfl, .inl ⟨rfl, _, rfl, node⟩⟩)
    | deleteProperty => exact .inr (.inl ⟨_, _, rfl, .inr (.inl ⟨rfl, _, rfl⟩)⟩)
    | omitted statement => exact .inr (.inl ⟨_, _, rfl, .inr (.inr ⟨rfl, statement⟩)⟩)
    | node labelled statements =>
      refine .inr (.inr ⟨_, _, by simp only [List.append_assoc]; rfl, labelled, _, _, rfl, .inr (.inl ⟨_, rfl, _, rfl, statements⟩)⟩)
    | flag labelled => exact .inr (.inr ⟨_, _, rfl, labelled, _, _, rfl, .inl rfl⟩)
    | property labelled values =>
      exact .inr (.inr ⟨_, _, by simp only [List.append_assoc]; rfl, labelled, _, _, rfl, .inr (.inr ⟨_, rfl, _, rfl, values⟩)⟩)
  · rintro (rfl | ⟨name, rest, rfl, directed⟩ | ⟨ls, more, rfl, labelled, name, rest, rfl, declared⟩)
    · exact .preproc
    · rcases directed with ⟨rfl, victim, rfl, node⟩ | ⟨rfl, property, rfl⟩ | ⟨rfl, statement⟩
      · exact .deleteNode node
      · exact .deleteProperty
      · exact .omitted statement
    · rcases declared with rfl | ⟨rest, rfl, parts, rfl, statements⟩ | ⟨rest, rfl, vs, rfl, values⟩
      · exact .flag labelled
      · have node := @IsStatement.node ls name parts labelled statements
        rw [List.append_assoc, List.append_assoc] at node
        exact node
      · have property := @IsStatement.property ls name vs labelled values
        rw [List.append_assoc, List.append_assoc] at property
        exact property

theorem labelled_cons {L : List Terminal → Prop} {t : Terminal} {ts : List Terminal} (word : Labelled L (t :: ts)) :
    t = .label ∨ L (t :: ts) := by
  obtain ⟨ls, more, equal, labelled, word⟩ := word
  cases ls with
  | nil => exact .inr (equal ▸ word)
  | cons l ls =>
    obtain ⟨rfl, -⟩ := List.cons.inj equal
    exact .inl (labelled t List.mem_cons_self)

theorem labelled_nil {L : List Terminal → Prop} (nonempty : ¬ L []) : ¬ Labelled L [] := by
  rintro ⟨ls, more, equal, -, word⟩
  rw [(List.append_eq_nil_iff.mp equal.symm).2] at word
  exact nonempty word

theorem directed_cons {t : Terminal} {ts : List Terminal} {L : Bytes → List Terminal → Prop} :
    (∃ name rest, t :: ts = .directive name :: rest ∧ L name rest) ↔ ∃ name, t = .directive name ∧ L name ts := by
  constructor
  · rintro ⟨name, rest, equal, directed⟩
    obtain ⟨rfl, rfl⟩ := List.cons.inj equal
    exact ⟨name, rfl, directed⟩
  · rintro ⟨name, rfl, directed⟩
    exact ⟨name, ts, rfl, directed⟩

theorem isStatement_nil : ¬ IsStatement [] := by
  rw [isStatement_iff]
  have none := labelled_nil (L := Declaration) (by simp [Declaration])
  simp [none]

theorem isStatement_cons {t : Terminal} {ts : List Terminal} : IsStatement (t :: ts) ↔
    t = .preproc ∧ ts = [] ∨ (∃ name, t = .directive name ∧ Directed name ts) ∨
      (t.kind = .label ∨ t.kind = .name) ∧ Labelled Declaration (t :: ts) := by
  rw [isStatement_iff]
  rw [directed_cons, List.cons.injEq]
  refine or_congr_right (or_congr_right ⟨fun word => ⟨?_, word⟩, And.right⟩)
  rcases labelled_cons word with rfl | ⟨name, rest, equal, -⟩
  · exact .inl rfl
  · obtain ⟨rfl, -⟩ := List.cons.inj equal
    exact .inr rfl

theorem block_close {ts : List Terminal} : Block (.mark .rbrace :: ts) ↔ ts = [.mark .semicolon] := by
  constructor
  · rintro ⟨parts, equal, statements⟩
    cases parts with
    | nil =>
      simp only [List.flatten_nil, List.nil_append, List.cons.injEq, true_and] at equal
      exact equal
    | cons part parts =>
      -- No statement begins with a closing brace.
      have statement := statements part List.mem_cons_self
      cases part with
      | nil => exact absurd statement isStatement_nil
      | cons t part =>
        simp only [List.flatten_cons, List.cons_append, List.cons.injEq] at equal
        rw [← equal.1, isStatement_cons] at statement
        simp [Terminal.kind] at statement
  · rintro rfl
    exact ⟨[], rfl, by simp⟩

theorem block_open {ts : List Terminal} (more : ts.head? ≠ some (.mark .rbrace)) : Block ts ↔
    ∃ front back, ts = front ++ back ∧ IsStatement front ∧ Block back := by
  constructor
  · rintro ⟨parts, rfl, statements⟩
    cases parts with
    | nil => exact absurd rfl more
    | cons part parts =>
      refine ⟨part, _, by rw [List.flatten_cons, List.append_assoc], statements part List.mem_cons_self, parts, rfl, ?_⟩
      exact fun p member => statements p (List.mem_cons_of_mem _ member)
  · rintro ⟨front, back, rfl, statement, parts, rfl, statements⟩
    refine ⟨front :: parts, by rw [List.flatten_cons, List.append_assoc], fun p member => ?_⟩
    rcases List.mem_cons.mp member with rfl | later
    · exact statement
    · exact statements p later

theorem block_nil : ¬ Block [] := by
  rintro ⟨parts, equal, -⟩
  simp at equal

theorem labels_length (fuel : Nat) (s : State) : (labels fuel s).2.cursor.rest.length ≤ s.cursor.rest.length := by
  fun_induction labels fuel s with
  | case1 => exact Nat.le_refl _
  | case2 fuel s t label more after equal ih =>
    have shorter := s.take_shorter (by rw [show s.peek.kind = .label from label]; simp)
    rw [equal] at ih
    exact Nat.le_of_lt (Nat.lt_of_le_of_lt ih shorter)
  | case3 => exact Nat.le_refl _

theorem skip_dirty {s : State} (dirty : ¬ s.Clean) : ¬ (skip s).Clean :=
  fun clean => dirty (clean.earlier (skip_yields s).1)

theorem bareProperty_dirty (found : List Label) (name : Token) (s : State) : ¬ (bareProperty found name s).2.Clean := by
  have dirty : ¬ (s.report name.range .incompleteDeclaration).Clean := s.report_dirty name.range rfl
  unfold bareProperty
  dsimp only
  split
  · exact skip_dirty dirty
  · exact dirty

-- What the parsers of nodes, bodies and statements accept with enough fuel.
structure Nested (fuel : Nat) : Prop where
  node : ∀ found name s, 2 * s.cursor.rest.length + 1 ≤ fuel → Accepts s (node fuel found name s).2 Braced
  body : ∀ s, 2 * s.cursor.rest.length + 2 ≤ fuel → Accepts s (body fuel s).2.2.2 Block
  statement : ∀ s, 2 * s.cursor.rest.length + 1 ≤ fuel → Accepts s (statement fuel s).2 IsStatement

theorem node_accepts {fuel : Nat} (nested : Nested fuel) (found : List Label) (name : Token) (s : State)
    (enough : 2 * s.cursor.rest.length + 1 ≤ fuel + 1) : Accepts s (node (fuel + 1) found name s).2 Braced := by
  have nonempty : ¬ Braced [] := by simp [Braced]
  rw [node]
  split
  · rename_i brace
    have shorter := s.take_shorter (by simp [brace])
    refine .take (t := .mark .lbrace) (by simp [Token.terminal, brace]) (by simp) ?_ nonempty
    exact (nested.body s.take (by omega)).congr fun ts _ _ => by simp [Braced]
  · rename_i other
    refine .refuse (skip_dirty (s.report_dirty _ rfl)) ?_ (by simp [Braced]) nonempty
    rintro ts ⟨rest, equal, -⟩
    exact other (by rw [← s.peek.terminal_kind, (List.cons.inj equal).1]; rfl)

theorem body_accepts {fuel : Nat} (nested : Nested fuel) (s : State) (enough : 2 * s.cursor.rest.length + 2 ≤ fuel + 1) :
    Accepts s (body (fuel + 1) s).2.2.2 Block := by
  by_cases close : s.peek.kind = .rbrace
  · simp only [body, close]
    refine .take (t := .mark .rbrace) (by simp [Token.terminal, close]) (by simp) ?_ block_nil
    exact (semicolon_accepts _ s.take).congr fun ts _ _ => block_close.symm
  by_cases ends : s.peek.kind = .eof
  · simp only [body, ends]
    refine ⟨fun clean => absurd clean (s.report_dirty _ rfl), fun ts stop _ delivers block => ?_⟩
    cases ts with
    | nil => exact absurd block block_nil
    | cons t ts => exact absurd ends delivers.1
  · have unfolded : (body (fuel + 1) s).2.2.2 = (body fuel (statement fuel s).2).2.2.2 := by
      rw [body]
      dsimp only
      split
      · rename_i kind
        exact absurd kind close
      · rename_i kind
        exact absurd kind ends
      · rfl
    rw [unfolded]
    refine ((nested.statement s (by omega)).seq isStatement_nil ((blocks_yield fuel).2.1 _).1 fun _ shorter =>
      nested.body _ (by omega)).congr fun ts stop delivers => (block_open ?_).symm
    intro head
    obtain ⟨rest, rfl⟩ := List.head?_eq_some_iff.mp head
    exact close delivers.kind.symm

theorem declared_accepts {fuel : Nat} (nested : Nested fuel) (found : List Label) (name : Token) (s : State)
    (enough : 2 * s.cursor.rest.length + 1 ≤ fuel) : Accepts s (declared fuel found name s).2 Declared := by
  have nonempty : ¬ Declared [] := by simp [Declared, Braced]
  cases kind : s.peek.kind with
  | lbrace =>
    simp only [declared, kind]
    refine (nested.node found name s enough).congr fun ts stop delivers => ⟨fun braced => .inr (.inl braced), ?_⟩
    have brace : s.cursor.next.1.kind = .lbrace := kind
    rintro (rfl | braced | ⟨rest, rfl, -⟩)
    · cases delivers.kind.trans brace
    · exact braced
    · cases delivers.kind.trans brace
  | equal =>
    simp only [declared, kind]
    refine .take (t := .mark .equal) (by simp [Token.terminal, kind]) (by simp) ?_ nonempty
    exact (property_accepts found name s.take).congr fun ts _ _ => by simp [Declared, Braced]
  | semicolon =>
    simp only [declared, kind]
    refine .take (t := .mark .semicolon) (by simp [Token.terminal, kind]) (by simp) ?_ nonempty
    exact (Accepts.done s.take).congr fun ts _ _ => by simp [Declared, Braced]
  | _ =>
    simp only [declared, kind]
    exact .refuse (bareProperty_dirty found name s) (by simp [Token.terminal, kind, Declared, Braced])
      (by simp [Declared, Braced]) nonempty

theorem declaration_accepts {fuel : Nat} (nested : Nested fuel) (found : List Label) (s : State)
    (enough : 2 * s.cursor.rest.length ≤ fuel) : Accepts s (declaration fuel found s).2 Declaration := by
  have nonempty : ¬ Declaration [] := by simp [Declaration]
  unfold declaration
  split
  · rename_i name
    have shorter := s.take_shorter (by simp [name])
    refine .take (t := .name s.peek.text) (by simp [Token.terminal, name]) (by simp) ?_ nonempty
    exact (declared_accepts nested found s.peek s.take (by omega)).congr fun ts _ _ => by simp [Declaration]
  · rename_i other
    refine .refuse (skip_dirty (s.report_dirty _ rfl)) ?_ (by simp [Declaration]) nonempty
    rintro ts ⟨name, rest, equal, -⟩
    exact other (by rw [← s.peek.terminal_kind, (List.cons.inj equal).1]; rfl)

theorem isStatement_directive {name : Bytes} {ts : List Terminal} :
    IsStatement (.directive name :: ts) ↔ Directed name ts := by
  simp [isStatement_cons, Terminal.kind]

-- The names of the two directives that delete tell the languages apart.
theorem directed_delete {name : Bytes} (deletes : name = utf8 "/delete-node/" ∨ name = utf8 "/delete-property/")
    {ts : List Terminal} : Directed name ts ↔
      ∃ victim, ts = [victim, .mark .semicolon] ∧ IsVictim (name = utf8 "/delete-node/") victim := by
  rcases deletes with rfl | rfl
  · have property : utf8 "/delete-node/" ≠ utf8 "/delete-property/" := by decide
    have omitted : utf8 "/delete-node/" ≠ utf8 "/omit-if-no-ref/" := by decide
    simp only [Directed, property, omitted, true_and, false_and, or_false]
    refine exists_congr fun victim => and_congr_right fun _ => ?_
    cases victim <;> simp [IsNode, IsVictim]
  · have node : utf8 "/delete-property/" ≠ utf8 "/delete-node/" := by decide
    have omitted : utf8 "/delete-property/" ≠ utf8 "/omit-if-no-ref/" := by decide
    simp only [Directed, node, omitted, true_and, false_and, or_false, false_or]
    constructor
    · rintro ⟨property, rfl⟩
      exact ⟨_, rfl, trivial⟩
    · rintro ⟨victim, rfl, allowed⟩
      cases victim with
      | name property => exact ⟨property, rfl⟩
      | _ => cases allowed

theorem preprocessor_accepts {s : State} (kind : s.peek.kind = .preproc) :
    Accepts s (preprocessor s.peek s) (· = [.preproc]) := by
  have seen : s.cursor.terminal = (.preproc, (preprocessor s.peek s).cursor) := by
    have token : s.cursor.next.1.kind = .preproc := kind
    simp only [Cursor.terminal, token, reduceCtorEq, decide_false, Bool.false_and, Bool.false_eq_true, if_false, Token.terminal]
    rfl
  have clean : (preprocessor s.peek s).Clean ↔ s.Clean := by
    simp only [State.Clean, preprocessor, State.report, List.mem_cons, forall_eq_or_imp]
    exact ⟨And.right, fun clean => ⟨rfl, clean⟩⟩
  refine .shift (preprocessor s.peek s) (by simp [kind]) seen clean ?_ (by simp)
  exact (Accepts.done _).congr (by simp)

theorem preproc_accepts {s after : State} {L : List Terminal → Prop} (kind : s.peek.kind = .preproc)
    (line : Accepts s after (· = [.preproc])) (word : L [.preproc]) (nonempty : ¬ L [])
    (single : ∀ t ts, t.kind = .preproc → L (t :: ts) → t :: ts = [.preproc]) : Accepts s after L := by
  refine line.congr fun ts stop delivers => ⟨fun equal => equal ▸ word, fun other => ?_⟩
  cases ts with
  | nil => exact absurd other nonempty
  | cons t ts => exact single t ts (delivers.kind.trans kind) other

theorem statement_accepts {fuel : Nat} (nested : Nested fuel) (s : State) (enough : 2 * s.cursor.rest.length + 1 ≤ fuel + 1) :
    Accepts s (statement (fuel + 1) s).2 IsStatement := by
  by_cases labelled : s.peek.kind = .label ∨ s.peek.kind = .name
  · rw [statement_eq labelled]
    have bound := labels_length s.rounds s
    have read := labels_accept (L := Declaration) s.rounds_enough (by simp [Declaration])
      (by simp [Declaration]) (declaration_accepts nested (labels s.rounds s).1 (labels s.rounds s).2 (by omega))
    refine read.congr fun ts stop delivers => ⟨fun word => isStatement_iff.mpr (.inr (.inr word)), fun statement => ?_⟩
    have first : ∀ t : Terminal, ∀ rest, ts = t :: rest → t.kind = .label ∨ t.kind = .name := by
      rintro t rest rfl
      rw [delivers.kind]
      exact labelled
    rcases isStatement_iff.mp statement with rfl | ⟨name, rest, rfl, -⟩ | word
    · exact absurd (first _ _ rfl) (by simp [Terminal.kind])
    · exact absurd (first _ _ rfl) (by simp [Terminal.kind])
    · exact word
  have refused : ∀ {after : State}, ¬ after.Clean → (∀ ts, ¬ IsStatement (s.peek.terminal :: ts)) →
      Accepts s after IsStatement :=
    fun dirty none => .refuse dirty none (by simp [isStatement_cons, Terminal.kind]) isStatement_nil
  cases kind : s.peek.kind with
  | preproc =>
    simp only [statement, kind]
    refine preproc_accepts kind (preprocessor_accepts kind) .preproc isStatement_nil fun t ts line statement => ?_
    rcases isStatement_cons.mp statement with ⟨rfl, rfl⟩ | ⟨name, rfl, -⟩ | ⟨label | name, -⟩
    · rfl
    · cases line
    · cases label.symm.trans line
    · cases name.symm.trans line
  | directive =>
    have seen : s.peek.terminal = .directive s.peek.text := by simp [Token.terminal, kind]
    have shorter := s.take_shorter (by simp [kind])
    simp only [statement, kind]
    split
    · rename_i deletes
      simp only [Bool.or_eq_true, decide_eq_true_eq] at deletes
      refine .take seen (by simp) ?_ isStatement_nil
      exact (delete_accepts s.peek s.take).congr fun ts _ _ => by rw [isStatement_directive, directed_delete deletes]
    · rename_i other
      simp only [Bool.or_eq_true, decide_eq_true_eq, not_or] at other
      split
      · rename_i omitted
        refine .take seen (by simp) ?_ isStatement_nil
        rw [omitted] at other
        refine (nested.statement s.take (by omega)).congr fun ts _ _ => ?_
        simp [isStatement_directive, Directed, other, omitted]
      · rename_i unknown
        refine refused (skip_dirty (State.report_dirty _ _ rfl)) fun ts => ?_
        simp [seen, isStatement_directive, Directed, other, unknown]
  | label => exact absurd (.inl kind) labelled
  | name => exact absurd (.inr kind) labelled
  | ref =>
    simp only [statement, kind]
    exact refused (skip_dirty (State.report_dirty _ _ rfl)) (by simp [Token.terminal, kind, isStatement_cons, Terminal.kind])
  | pathRef =>
    simp only [statement, kind]
    exact refused (skip_dirty (State.report_dirty _ _ rfl)) (by simp [Token.terminal, kind, isStatement_cons, Terminal.kind])
  | _ =>
    simp only [statement, kind]
    exact refused (State.report_dirty _ _ rfl) (by simp [Token.terminal, kind, isStatement_cons, Terminal.kind])

theorem nested (fuel : Nat) : Nested fuel := by
  induction fuel with
  | zero => exact ⟨fun _ _ _ enough => absurd enough (by omega), fun _ enough => absurd enough (by omega),
      fun _ enough => absurd enough (by omega)⟩
  | succ fuel ih => exact ⟨node_accepts ih, body_accepts ih, statement_accepts ih⟩

def Reserved (count : Nat) (ts : List Terminal) : Prop := ∃ args : List (List Terminal), args.length ≤ count ∧
  ts = args.flatten ++ [.mark .semicolon] ∧ ∀ arg ∈ args, (∃ text, arg = [.name text]) ∨ IsArray arg

theorem reserved_zero {ts : List Terminal} : Reserved 0 ts ↔ ts = [.mark .semicolon] := by
  constructor
  · rintro ⟨args, few, rfl, -⟩
    rw [List.eq_nil_of_length_eq_zero (Nat.le_zero.mp few)]
    rfl
  · rintro rfl
    exact ⟨[], Nat.le_refl _, rfl, nofun⟩

theorem reserved_succ {count : Nat} {ts : List Terminal} : Reserved (count + 1) ts ↔ ts = [.mark .semicolon] ∨
    ∃ front back, ts = front ++ back ∧ ((∃ text, front = [.name text]) ∨ IsArray front) ∧ Reserved count back := by
  constructor
  · rintro ⟨args, few, rfl, arguments⟩
    cases args with
    | nil => exact .inl rfl
    | cons arg args =>
      refine .inr ⟨arg, _, by rw [List.flatten_cons, List.append_assoc], arguments arg List.mem_cons_self, args,
        Nat.le_of_succ_le_succ few, rfl, fun a member => arguments a (List.mem_cons_of_mem _ member)⟩
  · rintro (rfl | ⟨front, back, rfl, argument, args, few, rfl, arguments⟩)
    · exact ⟨[], Nat.zero_le _, rfl, nofun⟩
    · refine ⟨front :: args, Nat.succ_le_succ few, by rw [List.flatten_cons, List.append_assoc], fun a member => ?_⟩
      rcases List.mem_cons.mp member with rfl | later
      · exact argument
      · exact arguments a later

theorem reserved_nil (count : Nat) : ¬ Reserved count [] := by
  rintro ⟨args, -, equal, -⟩
  simp at equal

theorem reserved_cons {count : Nat} {t : Terminal} {ts : List Terminal} : Reserved (count + 1) (t :: ts) ↔
    t = .mark .semicolon ∧ ts = [] ∨ (∃ text, t = .name text) ∧ Reserved count ts ∨
      t = .mark .langle ∧ ∃ front back, ts = front ++ back ∧ Until IsCell .rangle front ∧ Reserved count back := by
  rw [reserved_succ, List.cons.injEq]
  refine or_congr_right ⟨?_, ?_⟩
  · rintro ⟨front, back, equal, ⟨text, rfl⟩ | array, rest⟩
    · obtain ⟨rfl, rfl⟩ := List.cons.inj equal
      exact .inl ⟨⟨text, rfl⟩, rest⟩
    · cases front with
      | nil => exact absurd array isArray_nil
      | cons u front =>
        obtain ⟨rfl, rfl⟩ := List.cons.inj equal
        obtain ⟨rfl, cells⟩ := isArray_cons.mp array
        exact .inr ⟨rfl, front, back, rfl, cells, rest⟩
  · rintro (⟨⟨text, rfl⟩, rest⟩ | ⟨rfl, front, back, rfl, cells, rest⟩)
    · exact ⟨[.name text], ts, rfl, .inl ⟨text, rfl⟩, rest⟩
    · exact ⟨.mark .langle :: front, back, rfl, .inr (isArray_cons.mpr ⟨rfl, cells⟩), rest⟩

theorem semicolon_grows (stop : Position) (s : State) : s.errors <:+ (semicolon stop s).2.errors :=
  (semicolon_yields stop s).1

theorem reservation_accepts (count : Nat) (stop : Position) (s : State) :
    Accepts s (semicolon stop (reservation count s).2).2 (Reserved count) := by
  induction count generalizing s with
  | zero => exact (semicolon_accepts stop s).congr fun ts _ _ => reserved_zero.symm
  | succ count ih =>
    by_cases name : s.peek.kind = .name
    · simp only [reservation, name]
      refine .take (t := .name s.peek.text) (by simp [Token.terminal, name]) (by simp) ?_ (reserved_nil _)
      exact (ih s.take).congr fun ts _ _ => by simp [reserved_cons]
    by_cases langle : s.peek.kind = .langle
    · simp only [reservation, langle]
      refine .take (t := .mark .langle) (by simp [Token.terminal, langle]) (by simp) ?_ (reserved_nil _)
      refine ((array_accepts s.peek .w32 s.take).seq until_nil ?_ fun _ _ => ih _).congr fun ts _ _ => by simp [reserved_cons]
      exact (reservation_yields count _).1.trans (semicolon_grows _ _)
    have step : reservation (count + 1) s = ([], s) := by
      rw [reservation]
      split <;> first | contradiction | rfl
    rw [step]
    refine (semicolon_accepts stop s).congr fun ts place delivers => ?_
    cases ts with
    | nil => simp [reserved_nil]
    | cons t ts =>
      have first : t.kind = s.peek.kind := delivers.kind
      rw [reserved_cons, List.cons.injEq]
      refine ⟨.inl, ?_⟩
      rintro (ends | ⟨⟨text, rfl⟩, -⟩ | ⟨rfl, -⟩)
      · exact ends
      · exact absurd first.symm name
      · exact absurd first.symm langle

def Headed (ts : List Terminal) : Prop := ∃ heading rest, ts = heading :: rest ∧ IsHeading heading ∧ Braced rest

def TopDirected (name : Bytes) (ts : List Terminal) : Prop :=
  (name = utf8 "/dts-v1/" ∨ name = utf8 "/plugin/") ∧ ts = [.mark .semicolon] ∨
    name = utf8 "/memreserve/" ∧ Reserved 2 ts ∨
    name = utf8 "/include/" ∧ (∃ raw, ts = [.string raw]) ∨
    name = utf8 "/delete-node/" ∧ (∃ victim, ts = [victim, .mark .semicolon] ∧ IsNode victim) ∨
    name = utf8 "/omit-if-no-ref/" ∧ IsItem ts

theorem isItem_iff {ts : List Terminal} : IsItem ts ↔
    ts = [.preproc] ∨ (∃ name rest, ts = .directive name :: rest ∧ TopDirected name rest) ∨ Labelled Headed ts := by
  constructor
  · intro item
    cases item with
    | preproc => exact .inl rfl
    | version => exact .inr (.inl ⟨_, _, rfl, .inl ⟨.inl rfl, rfl⟩⟩)
    | plugin => exact .inr (.inl ⟨_, _, rfl, .inl ⟨.inr rfl, rfl⟩⟩)
    | reservation few arguments => exact .inr (.inl ⟨_, _, rfl, .inr (.inl ⟨rfl, _, few, rfl, arguments⟩)⟩)
    | inclusion => exact .inr (.inl ⟨_, _, rfl, .inr (.inr (.inl ⟨rfl, _, rfl⟩))⟩)
    | deleteNode node => exact .inr (.inl ⟨_, _, rfl, .inr (.inr (.inr (.inl ⟨rfl, _, rfl, node⟩)))⟩)
    | omitted item => exact .inr (.inl ⟨_, _, rfl, .inr (.inr (.inr (.inr ⟨rfl, item⟩)))⟩)
    | node labelled heads statements =>
      exact .inr (.inr ⟨_, _, by simp only [List.append_assoc]; rfl, labelled, _, _, rfl, heads, _, rfl, _, rfl, statements⟩)
  · rintro (rfl | ⟨name, rest, rfl, directed⟩ |
      ⟨ls, more, rfl, labelled, heading, rest, rfl, heads, body, rfl, parts, rfl, statements⟩)
    · exact .preproc
    · rcases directed with ⟨rfl | rfl, rfl⟩ | ⟨rfl, args, few, rfl, arguments⟩ | ⟨rfl, raw, rfl⟩ | ⟨rfl, victim, rfl, node⟩ |
        ⟨rfl, item⟩
      · exact .version
      · exact .plugin
      · exact .reservation few arguments
      · exact .inclusion
      · exact .deleteNode node
      · exact .omitted item
    · have node := @IsItem.node ls heading parts labelled heads statements
      rw [List.append_assoc, List.append_assoc] at node
      exact node

theorem isItem_nil : ¬ IsItem [] := by
  rw [isItem_iff]
  have none := labelled_nil (L := Headed) (by simp [Headed])
  simp [none]

def headKinds : List TokenKind := [.label, .name, .slash, .ref, .pathRef]

theorem heading_kind {t : Terminal} (heads : IsHeading t) : t.kind ∈ headKinds := by
  cases t with
  | mark kind => cases kind <;> simp_all [IsHeading, headKinds, Terminal.kind]
  | _ => simp_all [IsHeading, headKinds, Terminal.kind]

theorem isItem_cons {t : Terminal} {ts : List Terminal} : IsItem (t :: ts) ↔
    t = .preproc ∧ ts = [] ∨ (∃ name, t = .directive name ∧ TopDirected name ts) ∨
      t.kind ∈ headKinds ∧ Labelled Headed (t :: ts) := by
  rw [isItem_iff]
  rw [directed_cons, List.cons.injEq]
  refine or_congr_right (or_congr_right ⟨fun word => ⟨?_, word⟩, And.right⟩)
  rcases labelled_cons word with rfl | ⟨heading, rest, equal, heads, -⟩
  · simp [headKinds, Terminal.kind]
  · obtain ⟨rfl, -⟩ := List.cons.inj equal
    exact heading_kind heads

theorem isItem_directive {name : Bytes} {ts : List Terminal} : IsItem (.directive name :: ts) ↔ TopDirected name ts := by
  simp [isItem_cons, Terminal.kind, headKinds]

theorem isHeading_iff {t : Token} : IsHeading t.terminal ↔ t.kind ∈ [.slash, .name, .ref, .pathRef] := by
  cases kind : t.kind <;> simp [Token.terminal, kind, IsHeading]

theorem headed_accepts (found : List Label) (s : State) : Accepts s (headed found s).2 Headed := by
  have nonempty : ¬ Headed [] := by simp [Headed]
  unfold headed
  split
  · rename_i heads
    have heading := isHeading_iff.mpr heads
    have proper : s.peek.terminal ≠ .mark .eof ∧ s.peek.terminal ≠ .mark .lparen := by
      refine ⟨fun same => ?_, fun same => ?_⟩ <;>
      · rw [same] at heading
        exact heading
    have shorter := s.take_shorter fun kind => proper.1 (by rw [Token.terminal, kind])
    refine .take rfl proper ?_ nonempty
    refine ((nested s.fuel).node found s.peek s.take ?_).congr fun ts _ _ => by simp [Headed, heading]
    unfold State.fuel
    omega
  · rename_i other
    refine .refuse (s.report_dirty _ rfl) ?_ (by simp [Headed, IsHeading]) nonempty
    rintro ts ⟨heading, rest, equal, heads, -⟩
    obtain ⟨rfl, -⟩ := List.cons.inj equal
    exact other (isHeading_iff.mp heads)

theorem includeDirective_accepts (t : Token) (s : State) :
    Accepts s (includeDirective t s).2 fun ts => ∃ raw, ts = [.string raw] := by
  unfold includeDirective
  dsimp only
  split
  · rename_i kind
    refine .take (t := .string s.peek.text) (by simp [Token.terminal, kind]) (by simp) ?_ (by simp)
    exact (Accepts.done s.take).congr (by simp)
  · rename_i other
    refine .refuse (s.report_dirty _ rfl) ?_ (by simp) (by simp)
    rintro ts ⟨raw, equal⟩
    exact other (by rw [← s.peek.terminal_kind, (List.cons.inj equal).1]; rfl)

theorem item_refused {s after : State} (dirty : ¬ after.Clean) (none : ∀ ts, ¬ IsItem (s.peek.terminal :: ts)) :
    Accepts s after IsItem :=
  .refuse dirty none (by simp [isItem_cons, Terminal.kind, headKinds]) isItem_nil

theorem headed_item_accepts {fuel : Nat} {s : State} (heads : s.peek.kind ∈ headKinds) :
    Accepts s (item (fuel + 1) s).2 IsItem := by
  rw [item_eq heads]
  have read := labels_accept (L := Headed) s.rounds_enough (by simp [Headed])
    (by simp [Headed, IsHeading]) (headed_accepts (labels s.rounds s).1 (labels s.rounds s).2)
  refine read.congr fun ts stop delivers => ⟨fun word => isItem_iff.mpr (.inr (.inr word)), fun word => ?_⟩
  have first : ∀ t : Terminal, ∀ rest, ts = t :: rest → t.kind ∈ headKinds := by
    rintro t rest rfl
    rw [delivers.kind]
    exact heads
  rcases isItem_iff.mp word with rfl | ⟨name, rest, rfl, -⟩ | word
  · exact absurd (first _ _ rfl) (by simp [Terminal.kind, headKinds])
  · exact absurd (first _ _ rfl) (by simp [Terminal.kind, headKinds])
  · exact word

theorem preproc_item_accepts {fuel : Nat} {s : State} (kind : s.peek.kind = .preproc) :
    Accepts s (item (fuel + 1) s).2 IsItem := by
  have line : Accepts s (item (fuel + 1) s).2 (· = [.preproc]) := by
    simp only [item, kind]
    split
    · refine .take (t := .preproc) (by simp [Token.terminal, kind]) (by simp) ?_ (by simp)
      exact (Accepts.done s.take).congr (by simp)
    · exact preprocessor_accepts kind
  refine preproc_accepts kind line .preproc isItem_nil fun t ts noted word => ?_
  rcases isItem_cons.mp word with ⟨rfl, rfl⟩ | ⟨name, rfl, -⟩ | ⟨head, -⟩
  · rfl
  · cases noted
  · rw [noted] at head
    simp [headKinds] at head

theorem directive_item_accepts {fuel : Nat} {s : State} (kind : s.peek.kind = .directive)
    (inner : Accepts s.take (item fuel s.take).2 IsItem) : Accepts s (item (fuel + 1) s).2 IsItem := by
  have seen : s.peek.terminal = .directive s.peek.text := by simp [Token.terminal, kind]
  have onward : ∀ {after : State} {L : List Terminal → Prop}, Accepts s.take after L →
      (∀ ts, L ts ↔ TopDirected s.peek.text ts) → Accepts s after IsItem := by
    intro after L rest same
    refine .take seen (by simp) (rest.congr fun ts _ _ => ?_) isItem_nil
    rw [isItem_directive, same]
  simp only [item, kind]
  split
  · rename_i version
    simp only [Bool.or_eq_true, decide_eq_true_eq] at version
    refine onward (semicolon_accepts _ s.take) fun ts => ?_
    rcases version with name | name <;> simp +decide [TopDirected, name]
  · rename_i version
    simp only [Bool.or_eq_true, decide_eq_true_eq] at version
    by_cases reserves : s.peek.text = utf8 "/memreserve/"
    · rw [if_pos reserves]
      refine onward (reservation_accepts 2 _ s.take) fun ts => ?_
      simp +decide [TopDirected, reserves]
    rw [if_neg reserves]
    by_cases includes : s.peek.text = utf8 "/include/"
    · rw [if_pos includes]
      refine onward (includeDirective_accepts s.peek s.take) fun ts => ?_
      simp +decide [TopDirected, includes]
    rw [if_neg includes]
    by_cases deletes : s.peek.text = utf8 "/delete-node/"
    · rw [if_pos deletes]
      refine onward (delete_accepts s.peek s.take) fun ts => ?_
      rw [← directed_delete (.inl deletes)]
      simp +decide [TopDirected, Directed, deletes]
    rw [if_neg deletes]
    by_cases omitted : s.peek.text = utf8 "/omit-if-no-ref/"
    · rw [if_pos omitted]
      refine onward inner fun ts => ?_
      simp +decide [TopDirected, omitted]
    rw [if_neg omitted]
    refine item_refused (skip_dirty (State.report_dirty _ _ rfl)) fun ts => ?_
    simp [seen, isItem_directive, TopDirected, version, reserves, includes, deletes, omitted]

theorem item_accepts {fuel : Nat} {s : State} (enough : s.cursor.rest.length < fuel) :
    Accepts s (item fuel s).2 IsItem := by
  induction fuel generalizing s with
  | zero => exact absurd enough (Nat.not_lt_zero _)
  | succ fuel ih =>
    by_cases heads : s.peek.kind ∈ headKinds
    · exact headed_item_accepts heads
    cases kind : s.peek.kind with
    | preproc => exact preproc_item_accepts kind
    | directive =>
      have shorter := s.take_shorter (by simp [kind])
      exact directive_item_accepts kind (ih (s := s.take) (by omega))
    | label | name | slash | ref | pathRef => simp [kind, headKinds] at heads
    | _ =>
      simp only [item, kind]
      exact item_refused (State.report_dirty _ _ rfl)
        (by simp [Token.terminal, kind, isItem_cons, Terminal.kind, headKinds])

theorem isDocument_append {front back : List Terminal} (item : IsItem front) (document : IsDocument back) :
    IsDocument (front ++ back) := by
  obtain ⟨parts, rfl, all⟩ := document
  refine ⟨front :: parts, rfl, fun part member => ?_⟩
  rcases List.mem_cons.mp member with rfl | later
  · exact item
  · exact all part later

theorem items_sound {fuel : Nat} {s : State} (enough : s.cursor.rest.length < fuel) (clean : (items fuel s).2.Clean) :
    s.Clean ∧ ∃ ts stop, s.cursor.Delivers ts stop ∧ stop.next.1.kind = .eof ∧ IsDocument ts := by
  induction fuel generalizing s with
  | zero => exact absurd enough (Nat.not_lt_zero _)
  | succ fuel ih =>
    rw [items] at clean
    split at clean
    · rename_i ends
      exact ⟨clean, [], s.cursor, rfl, ends, [], rfl, nofun⟩
    · dsimp only at clean
      have between : (item s.rounds s).2.Clean := clean.earlier (items_yields fuel _).1
      obtain ⟨start, front, delivers, word⟩ := (item_accepts s.rounds_enough).sound between
      have shorter := delivers.length_le
      have positive := List.length_pos_iff.mpr fun empty => isItem_nil (empty ▸ word)
      obtain ⟨-, back, stop, delivers', ends, document⟩ := ih (s := (item s.rounds s).2) (by omega) clean
      exact ⟨start, front ++ back, stop, Cursor.delivers_append.mpr ⟨_, delivers, delivers'⟩, ends, isDocument_append word document⟩

theorem items_complete {fuel : Nat} {s : State} (clean : s.Clean) {ts : List Terminal} {stop : Cursor}
    (delivers : s.cursor.Delivers ts stop) (ends : stop.next.1.kind = .eof) (document : IsDocument ts) :
    (items fuel s).2.Clean := by
  induction fuel generalizing s ts with
  | zero => exact clean
  | succ fuel ih =>
    rw [items]
    split
    · exact clean
    · rename_i more
      obtain ⟨parts, rfl, all⟩ := document
      cases parts with
      | nil =>
        cases delivers
        exact absurd ends more
      | cons part parts =>
        obtain ⟨mid, first, second⟩ := Cursor.delivers_append.mp delivers
        obtain ⟨between, rfl⟩ := (item_accepts s.rounds_enough).complete part mid clean first (all part List.mem_cons_self)
        exact ih between second ⟨parts, rfl, fun p member => all p (List.mem_cons_of_mem _ member)⟩

end Parser

theorem Document.firstError_none {d : Document} : d.firstError? = none ↔ ∀ e ∈ d.errors, e.problem.ignored = true := by
  simp [firstError?]

-- A source is parsed without a mistake exactly if its terminals derive from the grammar.
theorem Document.parse_accepts_iff (source : Bytes) :
    (parse source).firstError? = none ↔ Grammar.IsDocument (terminals source) := by
  obtain ⟨place, delivered, atEnd⟩ := Cursor.terminals_delivered (c := .ofSource source) (Nat.le_refl _)
  have clean : (parse source).firstError? = none ↔ (Parser.items (Parser.State.start source).rounds (.start source)).2.Clean := by
    rw [firstError_none]
    exact ⟨fun all e member => all e (List.mem_reverse.mpr member), fun all e member => all e (List.mem_reverse.mp member)⟩
  rw [clean]
  constructor
  · intro accepted
    obtain ⟨-, ts, stop, delivers, ends, document⟩ := Parser.items_sound (Parser.State.rounds_enough _) accepted
    have same : ts = terminals source := delivers.unique ends delivered atEnd
    exact same ▸ document
  · intro document
    exact Parser.items_complete nofun delivered atEnd document

end DeviceTree
