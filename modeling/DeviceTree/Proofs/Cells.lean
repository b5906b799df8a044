import DeviceTree.Proofs.Places

namespace DeviceTree
open Lexer

def Behind (source : Bytes) (b : UInt8) (p : Position) : Prop :=
  ∃ front, front ++ [b] <+: source ∧ p = Position.first.after (front ++ [b])

theorem Behind.unique {source : Bytes} {a b : UInt8} {p : Position} (one : Behind source a p) (two : Behind source b p) :
    a = b := by
  obtain ⟨front, first, place⟩ := one
  obtain ⟨front', second, place'⟩ := two
  have same := Position.after_inj first second (place.symm.trans place')
  exact List.head_eq_of_cons_eq (List.append_inj' same rfl).2

def Cell.Located (source : Bytes) : Cell → Prop
  | .int range raw _ => ∃ front, front ++ raw <+: source ∧
      range = ⟨Position.first.after front, Position.first.after (front ++ raw)⟩
  | .ref _ => True

def Cell.mark : Cell → Position
  | .int range (0x28 :: _) _ => range.start.step 0x28
  | c => c.range.stop

-- The last cell is an expression in parentheses, with something behind the first of them.
def CellArray.EndsInGroup (a : CellArray) : Prop :=
  ∃ range b text value, a.cells.getLast? = some (.int range (0x28 :: b :: text) value)

-- The cells of an array stand in their order; they are all inside if it is closed or does not end in a group.
structure CellArray.Sound (source : Bytes) (a : CellArray) : Prop where
  proper : a.range.start ≤ a.range.stop
  cells : ∃ stop, Between a.range.start stop (a.cells.map Cell.range)
  inside : (∀ c ∈ a.cells, c.range.Within a.range) ↔ Behind source 0x3e a.range.stop ∨ ¬ a.EndsInGroup

def Value.Sound (source : Bytes) (v : Value) : Prop := ∀ a ∈ v.array?, a.Sound source

theorem Value.sound_array {source : Bytes} {a : CellArray} (sound : a.Sound source) : (Value.array a).Sound source := by
  intro b member
  cases member
  exact sound

theorem Value.sound_other {source : Bytes} {v : Value} (other : v.array? = none) : v.Sound source := by
  simp [Sound, other]

theorem Group.scan_prefix (depth : Nat) (rest : Bytes) : (Group.scan depth rest).text <+: rest := by
  fun_induction Group.scan depth rest with
  | case1 => exact List.prefix_rfl
  | case2 depth b rest _ g ih => exact List.cons_prefix_cons.mpr ⟨rfl, ih⟩
  | case3 depth b rest _ _ => exact List.cons_prefix_cons.mpr ⟨rfl, List.nil_prefix⟩
  | case4 depth b rest _ _ g ih => exact List.cons_prefix_cons.mpr ⟨rfl, ih⟩
  | case8 depth b rest _ _ _ _ _ g ih => exact List.cons_prefix_cons.mpr ⟨rfl, ih⟩
  | _ => exact List.nil_prefix

namespace Parser

variable {source : Bytes} {s mid after : State}

def leftAt (last : Position) (found : List Cell) : Position := found.foldl (fun _ c => c.mark) last

structure ReadsCells (source : Bytes) (s : State) (found : List Cell) (stop : Position) (after : State) : Prop where
  onward : Onward source s after
  cells : Between s.place after.place (found.map Cell.range)
  located : ∀ c ∈ found, c.Located source
  low : s.last ≤ stop
  high : stop ≤ after.place
  ends : stop = after.place ∧ Behind source 0x3e stop ∨ stop = leftAt s.last found

theorem ReadsCells.left (stands : s.Stands source) : ReadsCells source s [] s.last s where
  onward := .refl stands
  cells := le_rfl
  located := List.forall_mem_nil _
  low := le_rfl
  high := stands.last
  ends := .inr rfl

theorem ReadsCells.cons {c : Cell} {more : List Cell} {stop : Position} (first : Onward source s mid)
    (within : c.range.Within ⟨s.place, mid.place⟩) (located : c.Located source) (mark : mid.last = c.mark)
    (rest : ReadsCells source mid more stop after) : ReadsCells source s (c :: more) stop after where
  onward := first.trans rest.onward
  cells := ⟨within.1, within.2.1, rest.cells.widen within.2.2 le_rfl⟩
  located := List.forall_mem_cons.mpr ⟨located, rest.located⟩
  low := first.last.trans rest.low
  high := rest.high
  ends := by
    have ends := rest.ends
    rw [mark] at ends
    exact ends

theorem State.peek_within (s : State) : s.peek.range.Within ⟨s.place, s.take.place⟩ :=
  ⟨s.place_le_peek, s.peek.start_le, s.place_take.ge⟩

theorem ReadsCells.token {c : Cell} {more : List Cell} {stop : Position} (stands : s.Stands source)
    (ahead : s.peek.kind ≠ .eof) (range : c.range = s.peek.range) (located : c.Located source) (mark : c.mark = s.peek.stop)
    (rest : ReadsCells source s.take more stop after) : ReadsCells source s (c :: more) stop after := by
  refine .cons stands.take ?_ located ?_ rest
  · rw [range]
    exact s.peek_within
  · rw [State.last_take ahead, mark]

theorem cellOfToken_located (stands : s.Stands source) (kind : s.peek.kind = .name ∨ s.peek.kind = .char) :
    (cellOfToken s.peek).Located source := by
  have text : s.peek.text = s.peek.lexeme := by
    rcases kind with kind | kind <;> simp [Token.text, kind]
  obtain ⟨front, whole, start⟩ := stands.peek
  refine ⟨front, ?_, ?_⟩
  · rw [text]
    exact ⟨_, whole.symm⟩
  · rw [text, Position.after_append, ← start]
    rfl

-- Neither a name nor a character begins with a parenthesis.
theorem text_not_group (kind : s.peek.kind = .name ∨ s.peek.kind = .char) (text : Bytes) :
    s.peek.text ≠ 0x28 :: text := by
  have fits := s.cursor.next_fits
  intro same
  rcases kind with kind | kind
  · have named := text_name kind fits
    rw [same] at named
    exact absurd (named.2.2 0x28 List.mem_cons_self) (by decide)
  · have quoted : IsQuoted 0x27 s.peek.text := by
      rw [show s.cursor.next.1.kind = .char from kind] at fits
      simp only [Token.text, kind]
      exact fits
    obtain ⟨body, equal, -⟩ := quoted
    rw [same] at equal
    cases equal

theorem cellOfToken_mark (kind : s.peek.kind = .name ∨ s.peek.kind = .char) :
    (cellOfToken s.peek).mark = s.peek.stop := by
  have other := text_not_group kind
  unfold cellOfToken
  generalize s.peek.text = text at other
  unfold Cell.mark
  split
  · rename_i equal
    cases equal
    exact absurd rfl (other _)
  · rfl

-- A group goes behind the token at which it begins.
theorem group_located (stands : s.Stands source) (kind : s.peek.kind = .lparen) (value : Option Int64) :
    (Cell.int ⟨s.peek.start, s.peek.start.after (0x28 :: (Group.scan 1 s.take.cursor.rest).text)⟩
      (0x28 :: (Group.scan 1 s.take.cursor.rest).text) value).Located source := by
  obtain ⟨front, whole, start⟩ := stands.peek
  have lexeme : s.peek.lexeme = [0x28] := s.cursor.next_mark.2.1 kind
  refine ⟨front, ?_, ?_⟩
  · rw [whole, lexeme, List.append_assoc, List.prefix_append_right_inj]
    exact List.cons_prefix_cons.mpr ⟨rfl, Group.scan_prefix _ _⟩
  · rw [Position.after_append, ← start]

theorem group_within (stands : s.Stands source) (kind : s.peek.kind = .lparen) :
    Onward source s { s.take with cursor := s.take.cursor.advance (Group.scan 1 s.take.cursor.rest).text.length } ∧
    Range.Within ⟨s.peek.start, s.peek.start.after (0x28 :: (Group.scan 1 s.take.cursor.rest).text)⟩
      ⟨s.place, (s.take.cursor.advance (Group.scan 1 s.take.cursor.rest).text.length).position⟩ ∧
    s.take.last = s.peek.start.step 0x28 := by
  have lexeme : s.peek.lexeme = [0x28] := s.cursor.next_mark.2.1 kind
  have open_ : s.peek.stop = s.peek.start.step 0x28 := by
    rw [Token.stop, lexeme]
    rfl
  have front := List.prefix_iff_eq_take.mp (Group.scan_prefix 1 s.take.cursor.rest)
  have place : (s.take.cursor.advance (Group.scan 1 s.take.cursor.rest).text.length).position =
      s.peek.start.after (0x28 :: (Group.scan 1 s.take.cursor.rest).text) := by
    rw [Cursor.advance_position, ← front, show s.take.cursor.position = s.peek.stop from s.place_take, open_]
    rfl
  refine ⟨stands.beyond _, ⟨s.place_le_peek, Position.le_after _ _, place.ge⟩, ?_⟩
  rw [State.last_take (by simp [kind]), open_]

theorem cells_reads (fuel : Nat) (s : State) (stands : s.Stands source) :
    ReadsCells source s (cells fuel s).1 (cells fuel s).2.1 (cells fuel s).2.2 := by
  fun_induction cells fuel s with
  | case1 s => exact .left stands
  | case2 fuel s t kind =>
    have taken := stands.take
    have place := s.place_take
    obtain ⟨front, whole, start⟩ := stands.peek
    have lexeme : s.peek.lexeme = [0x3e] := s.cursor.next_mark.2.2 kind
    have stop : s.peek.stop = Position.first.after (front ++ [0x3e]) := by
      rw [Token.stop, lexeme, start, Position.after_append]
    refine ⟨taken, taken.place, List.forall_mem_nil _, ?_, place.ge, .inl ⟨place.symm, front, ?_, stop⟩⟩
    · exact stands.last.trans s.place_le_stop
    · rw [← lexeme]
      exact ⟨_, whole.symm⟩
  | case3 fuel s t kind more rest equal ih =>
    rw [equal] at ih
    exact .token stands (by simp [show s.peek.kind = .name from kind]) rfl (cellOfToken_located stands (.inl kind))
      (cellOfToken_mark (.inl kind)) (ih stands.take.stands)
  | case4 fuel s t kind more rest equal ih =>
    rw [equal] at ih
    exact .token stands (by simp [show s.peek.kind = .char from kind]) rfl (cellOfToken_located stands (.inr kind))
      (cellOfToken_mark (.inr kind)) (ih stands.take.stands)
  | case5 fuel s t kind more rest equal ih =>
    rw [equal] at ih
    exact .token stands (by simp [show s.peek.kind = .ref from kind]) rfl trivial rfl (ih stands.take.stands)
  | case6 fuel s t kind more rest equal ih =>
    rw [equal] at ih
    exact .token stands (by simp [show s.peek.kind = .pathRef from kind]) rfl trivial rfl (ih stands.take.stands)
  | case7 fuel s t kind opened group text range after closed more rest equal ih =>
    rw [equal] at ih
    obtain ⟨onward, within, last⟩ := group_within stands kind
    exact .cons onward within (group_located stands kind _) last (ih onward.stands)
  | case8 fuel s t kind opened group text range after open_ more rest equal ih =>
    rw [equal] at ih
    obtain ⟨onward, within, last⟩ := group_within stands kind
    have reported := onward.report range .unbalancedGroup
    exact .cons reported within (group_located stands kind _) last (ih reported.stands)
  | case9 fuel s t =>
    have left := ReadsCells.left stands
    exact ⟨left.onward.report _ _, left.cells, left.located, left.low, left.high, left.ends⟩

theorem leftAt_concat (last : Position) (front : List Cell) (c : Cell) : leftAt last (front ++ [c]) = c.mark := by
  simp [leftAt]

theorem mark_plain {c : Cell} (located : c.Located source)
    (plain : ∀ range b text value, c ≠ .int range (0x28 :: b :: text) value) : c.mark = c.range.stop := by
  unfold Cell.mark
  split
  · rename_i range text value
    obtain ⟨front, -, rfl⟩ := located
    cases text with
    | nil =>
      rw [Cell.range, Position.after_append]
      rfl
    | cons b text => exact absurd rfl (plain _ b text value)
  · rfl

theorem mark_group {range : Range} {b : UInt8} {text : Bytes} {value : Option Int64}
    (located : (Cell.int range (0x28 :: b :: text) value).Located source) :
    range.start.step 0x28 < range.stop ∧ Behind source 0x28 (range.start.step 0x28) := by
  obtain ⟨front, whole, rfl⟩ := located
  have step : (Position.first.after front).step 0x28 = Position.first.after (front ++ [0x28]) := by
    rw [Position.after_append]
    rfl
  refine ⟨?_, front, ?_, step⟩
  · rw [Position.after_append]
    exact Position.lt_after _ (List.cons_ne_nil b text)
  · refine List.IsPrefix.trans ⟨b :: text, ?_⟩ whole
    rw [List.append_assoc]
    rfl

theorem ReadsCells.sound {found : List Cell} {start stop : Position} (reads : ReadsCells source s found stop after)
    (early : start ≤ s.last) (behind : s.last ≤ s.place) (width : Width) :
    CellArray.Sound source ⟨⟨start, stop⟩, width, found⟩ := by
  have line := reads.cells.widen (early.trans behind) le_rfl
  have inside : Between start stop (found.map Cell.range) → ∀ c ∈ found, c.range.Within ⟨start, stop⟩ :=
    fun between c member => between.within (List.mem_map_of_mem member)
  refine ⟨early.trans reads.low, ⟨after.place, line⟩, ?_⟩
  rcases reads.ends with ⟨closed, angle⟩ | left
  · exact ⟨fun _ => .inl angle, fun _ => inside (closed ▸ line)⟩
  by_cases group : CellArray.EndsInGroup ⟨⟨start, stop⟩, width, found⟩
  · obtain ⟨range, b, text, value, last⟩ := group
    obtain ⟨front, rfl⟩ := List.getLast?_eq_some_iff.mp last
    rw [leftAt_concat] at left
    obtain ⟨short, paren⟩ := mark_group (reads.located _ (List.mem_append_right _ (List.mem_singleton_self _)))
    change stop = range.start.step 0x28 at left
    rw [← left] at short paren
    refine ⟨fun all => ?_, fun closed => ?_⟩
    · exact absurd (all _ (List.mem_append_right _ (List.mem_singleton_self _))).2.2 (not_le.mpr short)
    · rcases closed with angle | none
      · exact absurd (paren.unique angle) (by decide)
      · exact absurd ⟨range, b, text, value, last⟩ none
  · refine ⟨fun _ => .inr group, fun _ => inside ?_⟩
    rcases List.eq_nil_or_concat found with rfl | ⟨front, c, rfl⟩
    · exact early.trans reads.low
    · rw [List.concat_eq_append] at *
      rw [leftAt_concat, mark_plain (reads.located c (List.mem_append_right _ (List.mem_singleton_self c)))] at left
      · rw [List.map_append] at line ⊢
        exact left ▸ line.last
      · rintro range b text value rfl
        exact group ⟨range, b, text, value, List.getLast?_concat⟩

theorem byteElements_onward (fuel : Nat) (s : State) (stands : s.Stands source) :
    Onward source s (byteElements fuel s).2.2 ∧ s.last ≤ (byteElements fuel s).2.1 ∧
      (byteElements fuel s).2.1 ≤ (byteElements fuel s).2.2.place := by
  fun_induction byteElements fuel s with
  | case1 s => exact ⟨.refl stands, le_rfl, stands.last⟩
  | case2 fuel s t kind => exact ⟨stands.take, stands.last.trans s.place_le_stop, s.place_take.ge⟩
  | case3 fuel s t kind found good equal next more rest again ih =>
    rw [again] at ih
    have here : Onward source s next := by
      cases good with
      | true => exact stands.take
      | false => exact stands.take.report _ _
    obtain ⟨onward, low, high⟩ := ih here.stands
    exact ⟨here.trans onward, here.last.trans low, high⟩
  | case4 fuel s t => exact ⟨(Onward.refl stands).report _ _, le_rfl, stands.last⟩

theorem array_sound {start : Position} (t : Token) (width : Width) (stands : s.Stands source) (early : start ≤ s.last) :
    Onward source s (array t width s).2 ∧
      Range.Within ⟨start, (array t width s).1.range.stop⟩ ⟨start, (array t width s).2.place⟩ ∧
      CellArray.Sound source { (array t width s).1 with range := ⟨start, (array t width s).1.range.stop⟩ } := by
  have reads := cells_reads s.rounds s stands
  exact ⟨reads.onward, ⟨le_rfl, early.trans reads.low, reads.high⟩, reads.sound early stands.last width⟩

structure Finds (source : Bytes) (start : Position) (s : State) (read : Option Value × State) : Prop where
  onward : Onward source s read.2
  within : ∀ v ∈ read.1, v.range.Within ⟨start, read.2.place⟩
  sound : ∀ v ∈ read.1, v.Sound source

theorem Finds.none {start : Position} (onward : Onward source s after) : Finds source start s (none, after) :=
  ⟨onward, by simp, by simp⟩

theorem Finds.some {start : Position} {v : Value} (onward : Onward source s after)
    (within : v.range.Within ⟨start, after.place⟩) (sound : v.Sound source) : Finds source start s (some v, after) where
  onward := onward
  within w member := by
    cases member
    exact within
  sound w member := by
    cases member
    exact sound

theorem chosenWidth_onward (stands : s.Stands source) : Onward source s (chosenWidth s).2 := by
  unfold chosenWidth
  split
  · split
    · exact stands.take
    · exact stands.take.report _ _
  · exact .refl stands

theorem sizedArray_finds (t size : Token) (width : Width) (stands : s.Stands source) (early : t.start ≤ s.last) :
    Finds source t.start s (sizedArray t size width s) := by
  unfold sizedArray
  split
  · have taken := stands.take
    obtain ⟨onward, within, sound⟩ := array_sound s.peek width taken.stands (early.trans taken.last)
    exact .some (taken.trans onward) within (Value.sound_array sound)
  · exact .none ((Onward.refl stands).report _ _)

theorem wideArray_finds (t : Token) (stands : s.Stands source) (early : t.start ≤ s.last) :
    Finds source t.start s (wideArray t s) := by
  have chosen := chosenWidth_onward stands
  rw [wideArray_eq]
  have found := sizedArray_finds t s.peek (chosenWidth s).1 chosen.stands (early.trans chosen.last)
  exact ⟨chosen.trans found.onward, found.within, found.sound⟩

theorem value_finds (stands : s.Stands source) : Finds source s.place s (value s) := by
  have taken := stands.take
  have within := s.peek_within
  have last : s.peek.kind ≠ .eof → s.peek.start ≤ s.take.last := fun more => by
    rw [State.last_take more]
    exact s.peek.start_le
  unfold value
  dsimp only
  split
  · split
    · exact .some taken within (Value.sound_other rfl)
    · exact .some (taken.report _ _) within (Value.sound_other rfl)
  · rename_i kind
    obtain ⟨onward, inside, sound⟩ := array_sound s.peek .w32 taken.stands (last (by simp [kind]))
    exact .some (taken.trans onward) ⟨within.1, inside.2⟩ (Value.sound_array sound)
  · rename_i kind
    obtain ⟨onward, low, high⟩ := byteElements_onward s.take.rounds s.take taken.stands
    exact .some (taken.trans onward) ⟨within.1, (last (by simp [kind])).trans low, high⟩ (Value.sound_other rfl)
  · exact .some taken within (Value.sound_other rfl)
  · exact .some taken within (Value.sound_other rfl)
  · split
    · rename_i kind _
      have found := wideArray_finds s.peek taken.stands (last (by simp [kind]))
      refine ⟨taken.trans found.onward, fun v member => ?_, found.sound⟩
      have inside := found.within v member
      exact ⟨within.1.trans inside.1, inside.2⟩
    · exact .none (.refl stands)
  · split
    · exact .some (taken.report _ _) within (Value.sound_other rfl)
    · exact .none (taken.report _ _)
  · exact .none (.refl stands)

structure ReadsValues (source : Bytes) (start : Position) (s : State) (found : List Value) (stop : Position)
    (after : State) : Prop where
  onward : Onward source s after
  spans : Between start stop (found.map Value.range)
  high : stop ≤ after.place
  sound : ∀ v ∈ found, v.Sound source

theorem values_reads (fuel : Nat) (stop : Position) (s : State) (stands : s.Stands source) (behind : stop ≤ s.place) :
    ReadsValues source stop s (values fuel stop s).1 (values fuel stop s).2.1 (values fuel stop s).2.2 := by
  fun_induction values fuel stop s with
  | case1 stop s => exact ⟨.refl stands, le_rfl, behind, List.forall_mem_nil _⟩
  | case2 fuel stop s after equal =>
    have first := value_finds stands
    rw [equal] at first
    exact ⟨first.onward.report _ _, le_rfl, behind.trans first.onward.place, List.forall_mem_nil _⟩
  | case3 fuel stop s v after equal comma more rest again ih =>
    have first := value_finds stands
    rw [equal] at first
    rw [again] at ih
    have taken := first.onward.stands.take
    have later := ih taken.stands after.place_take.ge
    have within := first.within v rfl
    have comma : v.range.stop ≤ after.peek.stop := within.2.2.trans after.place_le_stop
    refine ⟨first.onward.trans (taken.trans later.onward), ?_, later.high, ?_⟩
    · exact ⟨behind.trans within.1, within.2.1, later.spans.widen comma le_rfl⟩
    · exact List.forall_mem_cons.mpr ⟨first.sound v rfl, later.sound⟩
  | case4 fuel stop s v after equal last =>
    have first := value_finds stands
    rw [equal] at first
    have within := first.within v rfl
    refine ⟨first.onward, ⟨behind.trans within.1, within.2.1, le_rfl⟩, within.2.2, ?_⟩
    intro w member
    cases List.mem_singleton.mp member
    exact first.sound v rfl

end Parser
end DeviceTree
