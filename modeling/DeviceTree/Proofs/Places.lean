import DeviceTree.Proofs.Grammar
import Mathlib.Data.Prod.Lex

namespace DeviceTree
namespace Position

instance : LinearOrder Position :=
  LinearOrder.lift' (fun p => toLex (p.line, p.column)) fun p q same => by
    cases p
    cases q
    simpa using same

theorem lt_iff {p q : Position} : p < q ↔ p.line < q.line ∨ p.line = q.line ∧ p.column < q.column := Prod.Lex.lt_iff

-- The order is that in which the program compares positions.
theorem before_iff {p q : Position} : p.before q = true ↔ p < q := by
  rw [lt_iff]
  simp [before]

theorem lt_step (p : Position) (b : UInt8) : p < p.step b := by
  rw [lt_iff]
  unfold step
  split
  · exact .inl (Nat.lt_succ_self _)
  · exact .inr ⟨rfl, Nat.lt_succ_self _⟩

theorem after_append (p : Position) (front back : Bytes) : p.after (front ++ back) = (p.after front).after back :=
  List.foldl_append

theorem le_after (p : Position) (text : Bytes) : p ≤ p.after text := by
  induction text generalizing p with
  | nil => exact le_refl p
  | cons b rest ih => exact (p.lt_step b).le.trans (ih (p.step b))

theorem lt_after (p : Position) {text : Bytes} (nonempty : text ≠ []) : p < p.after text := by
  cases text with
  | nil => exact absurd rfl nonempty
  | cons b rest => exact (p.lt_step b).trans_le (le_after (p.step b) rest)

theorem after_inj {p : Position} {one two source : Bytes} (first : one <+: source) (second : two <+: source)
    (same : p.after one = p.after two) : one = two := by
  have shorter : ∀ {short long : Bytes}, short <+: long → p.after short = p.after long → short = long := by
    intro short long front equal
    obtain ⟨more, rfl⟩ := front
    by_cases empty : more = []
    · rw [empty, List.append_nil]
    · rw [after_append] at equal
      exact absurd equal (lt_after _ empty).ne
  rcases List.prefix_or_prefix_of_prefix first second with front | front
  · exact shorter front same
  · exact (shorter front same.symm).symm

end Position

def Range.Within (inner outer : Range) : Prop :=
  outer.start ≤ inner.start ∧ inner.start ≤ inner.stop ∧ inner.stop ≤ outer.stop

def Between (start stop : Position) : List Range → Prop
  | [] => start ≤ stop
  | r :: rest => start ≤ r.start ∧ r.start ≤ r.stop ∧ Between r.stop stop rest

namespace Between

variable {start mid stop : Position} {r : Range} {front back : List Range}

theorem le (between : Between start stop front) : start ≤ stop := by
  induction front generalizing start with
  | nil => exact between
  | cons r rest ih => exact between.1.trans (between.2.1.trans (ih between.2.2))

theorem widen {lower upper : Position} (low : lower ≤ start) (between : Between start stop front) (high : stop ≤ upper) :
    Between lower upper front := by
  induction front generalizing lower start with
  | nil => exact low.trans (between.trans high)
  | cons r rest ih => exact ⟨low.trans between.1, between.2.1, ih le_rfl between.2.2⟩

theorem append (one : Between start mid front) (two : Between mid stop back) : Between start stop (front ++ back) := by
  induction front generalizing start with
  | nil => exact two.widen one le_rfl
  | cons r rest ih => exact ⟨one.1, one.2.1, ih one.2.2⟩

theorem within (between : Between start stop front) (member : r ∈ front) : r.Within ⟨start, stop⟩ := by
  induction front generalizing start with
  | nil => cases member
  | cons first rest ih =>
    rcases List.mem_cons.mp member with rfl | later
    · exact ⟨between.1, between.2.1, between.2.2.le⟩
    · have inside := ih between.2.2 later
      exact ⟨between.1.trans (between.2.1.trans inside.1), inside.2.1, inside.2.2⟩

theorem pairwise (between : Between start stop front) : front.Pairwise fun a b => a.stop ≤ b.start := by
  induction front generalizing start with
  | nil => exact .nil
  | cons r rest ih => exact .cons (fun b member => (between.2.2.within member).1) (ih between.2.2)

theorem last (between : Between start stop (front ++ [r])) : Between start r.stop (front ++ [r]) := by
  induction front generalizing start with
  | nil => exact ⟨between.1, between.2.1, le_rfl⟩
  | cons first rest ih => exact ⟨between.1, between.2.1, ih between.2.2⟩

end Between

theorem Token.start_le (t : Token) : t.start ≤ t.stop := Position.le_after _ _

namespace Lexer

theorem slash_kind (rest : Bytes) : (slash rest).1 = .error ∨ (slash rest).1 = .directive ∨ (slash rest).1 = .slash := by
  unfold slash
  dsimp only
  split
  · exact .inl rfl
  · split
    · exact .inr (.inl rfl)
    · exact .inr (.inr rfl)

theorem name_kind (first : UInt8) (rest : Bytes) : (name first rest).1 = .label ∨ (name first rest).1 = .name := by
  unfold name
  dsimp only
  split
  · exact .inl rfl
  · exact .inr rfl

theorem quoted_kind (kind : TokenKind) (quote : UInt8) (rest : Bytes) :
    (quoted kind quote rest).1 = kind ∨ (quoted kind quote rest).1 = .error := by
  unfold quoted
  dsimp only
  split
  · exact .inl rfl
  · exact .inr rfl

theorem reference_kinds (rest : Bytes) : (reference rest).1 ∈ [TokenKind.pathRef, .error, .other, .ref] := by
  unfold reference
  split
  · dsimp only
    split <;> simp
  · dsimp only
    split <;> simp

-- The marks `(` and `>` are one byte each, and only the end of the source is none.
theorem lexeme_mark (fresh : Bool) (first : UInt8) (rest : Bytes) :
    (lexeme fresh first rest).1 ≠ .eof ∧
      ((lexeme fresh first rest).1 = .lparen → first = 0x28 ∧ (lexeme fresh first rest).2 = 0) ∧
      ((lexeme fresh first rest).1 = .rangle → first = 0x3e ∧ (lexeme fresh first rest).2 = 0) := by
  have slashes := slash_kind rest
  have names := name_kind first rest
  have strings := quoted_kind .string first rest
  have chars := quoted_kind .char first rest
  have references := reference_kinds rest
  unfold lexeme
  split
  case h_11 same => exact ⟨by simp, by simp, fun _ => ⟨byte_of_char same, rfl⟩⟩
  case h_14 same => exact ⟨by simp, fun _ => ⟨byte_of_char same, rfl⟩, by simp⟩
  case h_1 => rcases slashes with kind | kind | kind <;> simp [kind]
  case h_2 =>
    split
    · simp
    · rcases names with kind | kind <;> simp [kind]
  case h_3 => rcases strings with kind | kind <;> simp [kind]
  case h_4 => rcases chars with kind | kind <;> simp [kind]
  case h_5 =>
    simp only [List.mem_cons, List.not_mem_nil, or_false] at references
    rcases references with kind | kind | kind | kind <;> simp [kind]
  case h_17 =>
    split
    · rcases names with kind | kind <;> simp [kind]
    · simp
  all_goals simp

end Lexer

namespace Cursor

theorem advance_position (n : Nat) (c : Cursor) : (c.advance n).position = c.position.after (c.rest.take n) := by
  induction n generalizing c with
  | zero => rfl
  | succ n ih =>
    unfold advance
    split
    · rename_i empty
      rw [empty, List.take_nil]
      rfl
    · rename_i b rest whole
      rw [ih, whole]
      rfl

theorem next_whole (c : Cursor) : ∃ gap, c.rest = gap ++ c.next.1.lexeme ++ c.next.2.rest ∧
    c.next.1.start = c.position.after gap ∧ c.next.2.position = c.next.1.stop := by
  refine ⟨c.rest.take (Lexer.gapLength 0 c.rest), ?_⟩
  have gap := advance_position (Lexer.gapLength 0 c.rest) c
  have left := advance_rest (Lexer.gapLength 0 c.rest) c
  have whole := List.take_append_drop (Lexer.gapLength 0 c.rest) c.rest
  rw [← left] at whole
  change c.skipGap.position = _ at gap
  change _ ++ c.skipGap.rest = _ at whole
  unfold next
  dsimp only
  split
  · rename_i empty
    rw [empty] at whole ⊢
    exact ⟨by simpa using whole.symm, gap, rfl⟩
  · rename_i b rest found
    dsimp only
    refine ⟨?_, gap, ?_⟩
    · rw [advance_rest, found, List.drop_succ_cons, List.append_assoc, List.cons_append, List.take_append_drop, ← found,
        whole]
    · rw [advance_position, found]
      rfl

theorem next_some (c : Cursor) (more : c.next.1.kind ≠ .eof) : c.next.1.lexeme ≠ [] := by
  unfold next at more ⊢
  dsimp only at more ⊢
  split at more
  · exact absurd rfl more
  · exact List.cons_ne_nil _ _

theorem next_mark (c : Cursor) : (c.next.1.kind = .eof → c.next.1.lexeme = []) ∧
    (c.next.1.kind = .lparen → c.next.1.lexeme = [0x28]) ∧ (c.next.1.kind = .rangle → c.next.1.lexeme = [0x3e]) := by
  unfold next
  dsimp only
  split
  · simp
  · rename_i b rest _
    obtain ⟨more, paren, angle⟩ := Lexer.lexeme_mark c.skipGap.fresh b rest
    refine ⟨fun kind => absurd kind more, fun kind => ?_, fun kind => ?_⟩
    · obtain ⟨rfl, none⟩ := paren kind
      simp [none]
    · obtain ⟨rfl, none⟩ := angle kind
      simp [none]

end Cursor

namespace Parser

abbrev State.place (s : State) : Position := s.cursor.position

abbrev State.ahead (s : State) : Position := s.peek.start

-- A place of the source, and nothing that was taken ends behind it.
structure State.Stands (source : Bytes) (s : State) : Prop where
  place : ∃ front, source = front ++ s.cursor.rest ∧ s.place = Position.first.after front
  last : s.last ≤ s.place

structure Onward (source : Bytes) (s after : State) : Prop where
  stands : after.Stands source
  place : s.place ≤ after.place
  ahead : s.ahead ≤ after.ahead
  last : s.last ≤ after.last
  left : after.cursor.rest.length ≤ s.cursor.rest.length

variable {source : Bytes} {s mid after : State}

theorem Onward.refl (stands : s.Stands source) : Onward source s s := ⟨stands, le_rfl, le_rfl, le_rfl, Nat.le_refl _⟩

theorem Onward.trans (first : Onward source s mid) (second : Onward source mid after) : Onward source s after where
  stands := second.stands
  place := first.place.trans second.place
  ahead := first.ahead.trans second.ahead
  last := first.last.trans second.last
  left := Nat.le_trans second.left first.left

theorem Onward.report (onward : Onward source s after) (range : Range) (problem : Problem) :
    Onward source s (after.report range problem) :=
  ⟨⟨onward.stands.place, onward.stands.last⟩, onward.place, onward.ahead, onward.last, onward.left⟩

theorem State.stands_start (source : Bytes) : (State.start source).Stands source := ⟨⟨[], rfl, rfl⟩, le_rfl⟩

theorem State.place_le_peek (s : State) : s.place ≤ s.peek.start := by
  obtain ⟨gap, -, start, -⟩ := s.cursor.next_whole
  rw [State.peek, start]
  exact Position.le_after _ _

theorem State.place_le_stop (s : State) : s.place ≤ s.peek.stop := s.place_le_peek.trans s.peek.start_le

theorem State.place_take (s : State) : s.take.place = s.peek.stop := s.cursor.next_whole.choose_spec.2.2

theorem State.place_lt_take (s : State) (more : s.peek.kind ≠ .eof) : s.place < s.take.place := by
  rw [s.place_take]
  exact s.place_le_peek.trans_lt (Position.lt_after _ (s.cursor.next_some more))

theorem State.last_take (more : s.peek.kind ≠ .eof) : s.take.last = s.peek.stop := if_neg more

theorem State.Stands.peek (stands : s.Stands source) : ∃ front, source = front ++ s.peek.lexeme ++ s.take.cursor.rest ∧
    s.peek.start = Position.first.after front := by
  obtain ⟨front, whole, place⟩ := stands.place
  obtain ⟨gap, rest, start, -⟩ := s.cursor.next_whole
  refine ⟨front ++ gap, ?_, ?_⟩
  · rw [whole, rest]
    simp only [List.append_assoc]
    rfl
  · rw [Position.after_append, ← place]
    exact start

theorem State.Stands.beyond (stands : s.Stands source) (n : Nat) :
    Onward source s { s.take with cursor := s.take.cursor.advance n } := by
  have place : (s.take.cursor.advance n).position = s.peek.stop.after (s.take.cursor.rest.take n) := by
    rw [Cursor.advance_position, show s.take.cursor.position = s.peek.stop from s.place_take]
  have beyond : s.peek.stop ≤ (s.take.cursor.advance n).position := place ▸ Position.le_after _ _
  have forward := s.peek.start_le.trans beyond
  have last : s.last ≤ s.take.last ∧ s.take.last ≤ s.peek.stop := by
    by_cases ends : s.peek.kind = .eof
    · have same : s.take.last = s.last := if_pos ends
      rw [same]
      exact ⟨le_rfl, stands.last.trans s.place_le_stop⟩
    · rw [State.last_take ends]
      exact ⟨stands.last.trans s.place_le_stop, le_rfl⟩
  obtain ⟨front, whole, start⟩ := stands.peek
  refine ⟨⟨⟨front ++ s.peek.lexeme ++ s.take.cursor.rest.take n, ?_, ?_⟩, last.2.trans beyond⟩, ?_, ?_, last.1, ?_⟩
  · rw [Cursor.advance_rest, List.append_assoc _ (List.take n _), List.take_append_drop]
    exact whole
  · rw [Position.after_append, Position.after_append, ← start]
    exact place
  · exact s.place_le_peek.trans forward
  · exact forward.trans (State.place_le_peek { s.take with cursor := s.take.cursor.advance n })
  · obtain ⟨gap, rest, -⟩ := s.cursor.next_whole
    rw [Cursor.advance_rest, rest, List.length_drop, List.length_append]
    exact (Nat.sub_le _ _).trans (Nat.le_add_left _ _)

theorem State.Stands.take (stands : s.Stands source) : Onward source s s.take := stands.beyond 0

end Parser
end DeviceTree
