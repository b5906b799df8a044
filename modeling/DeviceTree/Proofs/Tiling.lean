import DeviceTree.Proofs.Offsets

namespace DeviceTree
namespace Lexer

-- What may stand in front of `rest` without being part of a token. The comment of a line reaches to the line end, and
-- any other to the first closing.
inductive Gap : (gap rest : Bytes) → Prop where
  | none (rest : Bytes) : Gap [] rest
  | blank {b : UInt8} {gap rest : Bytes} (blank : isBlank b = true) (more : Gap gap rest) : Gap (b :: gap) rest
  | line {text gap rest : Bytes} (single : 0x0a ∉ text) (ends : ∀ b ∈ (gap ++ rest).head?, b = 0x0a)
      (more : Gap gap rest) : Gap (utf8 "//" ++ text ++ gap) rest
  | block {text gap rest : Bytes} (first : ¬ utf8 "*/" <:+: text) (more : Gap gap rest) :
      Gap (utf8 "/*" ++ text ++ utf8 "*/" ++ gap) rest

theorem gapLength_inside (n : Nat) (text : Bytes) : gapLength n text = min n text.length + gapLength 0 (text.drop n) := by
  induction text generalizing n with
  | nil => simp [gapLength]
  | cons b rest ih =>
    cases n with
    | zero => simp
    | succ n =>
      rw [gapLength, ih, List.length_cons, List.drop_succ_cons]
      omega

theorem lineLength_cut (text : Bytes) : ∃ line after, text = line ++ after ∧ lineLength text = line.length ∧ 0x0a ∉ line ∧
    ∀ b ∈ after.head?, b = 0x0a := by
  obtain ⟨line, after, rfl, all, stop⟩ := takeWhile_cut (· != 0x0a) text
  refine ⟨line, after, rfl, ?_, fun feed => by simpa using all _ feed, fun b first => by simpa using stop b first⟩
  rw [lineLength, takeWhile_stop all stop]

theorem commentLength_cut {text : Bytes} {n : Nat} (closed : commentLength text = some n) :
    ∃ inner after, text = inner ++ utf8 "*/" ++ after ∧ n = inner.length + 2 ∧ ¬ utf8 "*/" <:+: inner := by
  fun_induction commentLength text generalizing n with
  | case1 after =>
    cases closed
    exact ⟨[], after, rfl, rfl, by decide⟩
  | case2 b rest other ih =>
    obtain ⟨m, found, rfl⟩ := Option.map_eq_some_iff.mp closed
    obtain ⟨inner, after, rfl, rfl, first⟩ := ih found
    refine ⟨b :: inner, after, rfl, rfl, fun part => ?_⟩
    rcases List.infix_cons_iff.mp part with front | later
    · -- A closing at the front is found first.
      obtain ⟨more, whole⟩ := front
      obtain ⟨rfl, behind⟩ := List.cons.inj whole
      refine other (more ++ utf8 "*/" ++ after) rfl ?_
      rw [← behind]
      rfl
    · exact first later
  | case3 => cases closed

theorem gapPiece_cut {b : UInt8} {rest : Bytes} {n : Nat} (found : gapPiece b rest = some n) :
    ∃ piece after, b :: rest = piece ++ after ∧ piece.length = n + 1 ∧
      ∀ gap beyond, after = gap ++ beyond → Gap gap beyond → Gap (piece ++ gap) beyond := by
  unfold gapPiece at found
  split at found
  · rename_i blank
    cases found
    exact ⟨[b], rest, rfl, rfl, fun gap beyond _ more => .blank blank more⟩
  · split at found
    · rename_i slash
      subst slash
      split at found
      · rename_i body
        cases found
        obtain ⟨line, after, rfl, length, single, ends⟩ := lineLength_cut body
        refine ⟨utf8 "//" ++ line, after, rfl, ?_, fun gap beyond whole more => ?_⟩
        · have slash : lineLength (0x2f :: (line ++ after)) = lineLength (line ++ after) + 1 := rfl
          rw [slash, length, List.length_append]
          exact Nat.add_comm 2 line.length
        · exact .line single (whole ▸ ends) more
      · rename_i body
        obtain ⟨m, closed, rfl⟩ := Option.map_eq_some_iff.mp found
        obtain ⟨inner, after, rfl, rfl, first⟩ := commentLength_cut closed
        refine ⟨utf8 "/*" ++ inner ++ utf8 "*/", after, by simp [show utf8 "/*" = [0x2f, 0x2a] from rfl], ?_, ?_⟩
        · rw [List.length_append, List.length_append, show (utf8 "/*").length = 2 from rfl,
            show (utf8 "*/").length = 2 from rfl]
          omega
        · intro gap beyond _ more
          exact .block first more
      · cases found
    · cases found

theorem gapLength_gap (text : Bytes) : Gap (text.take (gapLength 0 text)) (text.drop (gapLength 0 text)) := by
  cases text with
  | nil => exact .none _
  | cons b rest =>
    cases found : gapPiece b rest with
    | none =>
      rw [gapLength, found]
      exact .none _
    | some n =>
      obtain ⟨piece, after, whole, length, join⟩ := gapPiece_cut found
      have left : rest.drop n = after := by
        have drop := congrArg (List.drop (n + 1)) whole
        rwa [List.drop_succ_cons, ← length, List.drop_left] at drop
      have total : gapLength 0 (b :: rest) = piece.length + gapLength 0 after := by
        have bound := congrArg List.length whole
        rw [List.length_cons, List.length_append] at bound
        rw [gapLength, found]
        dsimp only
        rw [gapLength_inside, left]
        omega
      have shorter : after.length < (b :: rest).length := by
        rw [whole, List.length_append]
        omega
      have later := gapLength_gap after
      rw [total, whole, List.take_length_add_append, List.drop_length_add_append]
      exact join _ _ (List.take_append_drop _ after).symm later
termination_by text.length

end Lexer

namespace Token

variable {source : Bytes} {t : Token} {start stop : Nat}

structure Covers (source : Bytes) (t : Token) (start stop : Nat) : Prop where
  inside : start ≤ stop ∧ stop ≤ source.length
  range : t.range = ⟨.ofOffset source start, .ofOffset source stop⟩
  text : (source.take stop).drop start = if t.kind = .label then t.text ++ [0x3a] else t.text

theorem text_lexeme (fits : Lexer.Fits t.kind t.lexeme) : t.lexeme = if t.kind = .label then t.text ++ [0x3a] else t.text := by
  split
  · rename_i label
    rw [label] at fits
    obtain ⟨name, same, -⟩ := fits
    rw [Token.text, label, same]
    dsimp only
    rw [List.dropLast_concat]
  · rename_i other
    rw [Token.text]
    split
    · rename_i label
      exact absurd label other
    · rfl

theorem Spans.covers (spans : t.Spans source start stop) (fits : Lexer.Fits t.kind t.lexeme) : t.Covers source start stop where
  inside := spans.inside
  range := congrArg₂ Range.mk spans.place spans.stop
  text := spans.lexeme.trans (text_lexeme fits)

end Token

-- The tokens of a source from an offset on. The last one, and no other, is the end, which takes no byte.
inductive Tiles (source : Bytes) : Nat → List Token → Prop where
  | done {offset : Nat} {t : Token} (gap : Lexer.Gap (source.drop offset) []) (ends : t.kind = .eof)
      (covers : t.Covers source source.length source.length) : Tiles source offset [t]
  | token {offset start stop : Nat} {t : Token} {ts : List Token} (behind : offset ≤ start)
      (gap : Lexer.Gap ((source.take start).drop offset) (source.drop start)) (more : t.kind ≠ .eof) (proper : start < stop)
      (covers : t.Covers source start stop) (rest : Tiles source stop ts) : Tiles source offset (t :: ts)

-- Each token takes a byte at least, so that the fuel does not run out before the end is found.
theorem tiles_tokens {source : Bytes} {offset : Nat} (inside : offset ≤ source.length) {fuel : Nat}
    (enough : source.length - offset < fuel) : Tiles source offset (Lexer.tokens fuel (.ofOffset source offset)) := by
  induction fuel generalizing offset with
  | zero => omega
  | succ fuel ih =>
    obtain ⟨stop, spans, behind⟩ := Cursor.next_ofOffset source inside
    have fits := (Cursor.ofOffset source offset).next_fits
    have mark := (Cursor.ofOffset source offset).next_mark.1
    have some := (Cursor.ofOffset source offset).next_some
    have last := @Cursor.next_ends (.ofOffset source offset)
    have gap := Lexer.gapLength_gap (source.drop offset)
    rw [List.drop_drop] at gap
    rw [Lexer.tokens]
    generalize Cursor.next (.ofOffset source offset) = found at *
    obtain ⟨t, after⟩ := found
    have ordered := spans.inside
    have lexeme := spans.lexeme
    dsimp only at behind last ⊢
    split
    · rename_i ends
      have empty := last ends
      have past : source.length ≤ stop := by
        rw [behind] at empty
        exact List.drop_eq_nil_iff.mp empty
      have none := mark ends
      have width : stop ≤ offset + Lexer.gapLength 0 (source.drop offset) := by
        rw [none, List.drop_eq_nil_iff, List.length_take, Nat.min_eq_left ordered.2] at lexeme
        exact lexeme
      have whole : offset + Lexer.gapLength 0 (source.drop offset) = source.length := by omega
      have covers := spans.covers fits
      rw [whole, Nat.le_antisymm ordered.2 past] at covers
      rw [whole, List.drop_length, List.take_of_length_le (by rw [List.length_drop]; omega)] at gap
      exact .done gap ends covers
    · rename_i more
      have proper := spans.proper (some more)
      rw [behind]
      refine .token (Nat.le_add_right ..) ?_ more proper (spans.covers fits) (ih ordered.2 (by omega))
      rwa [List.drop_take, Nat.add_sub_cancel_left]

theorem tokens_tile (source : Bytes) : Tiles source 0 (tokens source) :=
  tiles_tokens (Nat.zero_le _) (Nat.lt_succ_self _)

end DeviceTree
