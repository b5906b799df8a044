import DeviceTree.Proofs.Spelling
import DeviceTree.Proofs.Taking

namespace DeviceTree

attribute [ext] Position Cursor

namespace Position

theorem starts_later (base : Nat) (text : Bytes) : ∃ later, lineStarts.go base text = base :: later ∧ ∀ start ∈ later, base < start := by
  induction text generalizing base with
  | nil => exact ⟨[], rfl, List.forall_mem_nil _⟩
  | cons b rest ih =>
    obtain ⟨later, equal, beyond⟩ := ih (base + 1)
    rw [lineStarts.go, equal]
    split
    · refine ⟨_, rfl, List.forall_mem_cons.mpr ⟨Nat.lt_succ_self base, fun start member => ?_⟩⟩
      exact (Nat.lt_succ_self base).trans (beyond start member)
    · exact ⟨later, rfl, fun start member => (Nat.lt_succ_self base).trans (beyond start member)⟩

theorem starts_search {base offset : Nat} (behind : base ≤ offset) (text : Bytes) :
    (lineStarts.go base text).findIdx (fun start => decide (offset < start)) = (text.take (offset - base)).count 0x0a + 1 := by
  have first : decide (offset < base) = false := decide_eq_false (Nat.not_lt.mpr behind)
  induction text generalizing base with
  | nil => simp [lineStarts.go, List.findIdx_cons, first]
  | cons b rest ih =>
    rcases Nat.eq_or_lt_of_le behind with rfl | further
    · -- Every other line begins behind the offset.
      obtain ⟨later, equal, beyond⟩ := starts_later base (b :: rest)
      have next : later.findIdx (fun start => decide (base < start)) = 0 := by
        cases later with
        | nil => rfl
        | cons start more => simp [List.findIdx_cons, beyond start List.mem_cons_self]
      rw [equal, List.findIdx_cons, first, cond_false, next, Nat.sub_self]
      rfl
    · have found := ih further (decide_eq_false (Nat.not_lt.mpr further))
      obtain ⟨later, equal, -⟩ := starts_later (base + 1) rest
      have width : offset - base = (offset - (base + 1)) + 1 := by omega
      rw [lineStarts.go, width, List.take_succ_cons, List.count_cons]
      by_cases feed : b = 0x0a
      · rw [if_pos feed, List.findIdx_cons, first, cond_false, found, feed, BEq.rfl, if_pos rfl]
      · have same : (b == 0x0a) = false := beq_eq_false_iff_ne.mpr feed
        rw [equal, List.findIdx_cons, decide_eq_false (Nat.not_lt.mpr further), cond_false] at found
        rw [if_neg feed, equal, List.findIdx_cons, first, cond_false, found, same, if_neg Bool.false_ne_true]

theorem ofOffset_add (source : Bytes) (offset n : Nat) :
    ofOffset source (offset + n) = (ofOffset source offset).after ((source.drop offset).take n) := by
  rw [ofOffset, List.take_add, after_append]
  rfl

theorem toOffset_ofOffset {source : Bytes} {offset : Nat} (inside : offset ≤ source.length) :
    (ofOffset source offset).toOffset source = some offset := by
  have found := toOffset_after (source.take offset) (source.drop offset)
  rwa [List.take_append_drop, List.length_take, Nat.min_eq_left inside] at found

end Position

namespace Cursor

open Lexer

def ofOffset (source : Bytes) (offset : Nat) : Cursor :=
  ⟨source.drop offset, .ofOffset source offset, freshAfter true (source.take offset)⟩

theorem advance_fresh (n : Nat) (c : Cursor) : (c.advance n).fresh = freshAfter c.fresh (c.rest.take n) := by
  induction n generalizing c with
  | zero => rfl
  | succ n ih =>
    unfold advance
    split
    · rename_i empty
      rw [empty, List.take_nil]
      rfl
    · rename_i b rest whole
      rw [ih, whole]
      rfl

variable (source : Bytes) (offset : Nat)

theorem ofOffset_start : ofOffset source 0 = ofSource source := rfl

theorem advance_ofOffset (n : Nat) : (ofOffset source offset).advance n = ofOffset source (offset + n) := by
  refine Cursor.ext ?_ ?_ ?_
  · rw [advance_rest]
    exact List.drop_drop
  · rw [advance_position]
    exact (Position.ofOffset_add source offset n).symm
  · rw [advance_fresh]
    change freshAfter (freshAfter true (source.take offset)) ((source.drop offset).take n) = _
    rw [← freshAfter_append, ← List.take_add]
    rfl

theorem ofOffset_min : ofOffset source (min offset source.length) = ofOffset source offset := by
  rcases Nat.le_total offset source.length with inside | past
  · rw [Nat.min_eq_left inside]
  · rw [Nat.min_eq_right past, ofOffset, ofOffset, Position.ofOffset, Position.ofOffset, List.drop_length,
      List.take_length, List.drop_eq_nil_of_le past, List.take_of_length_le past]

theorem rest_ofOffset : (ofOffset source offset).rest = source.drop offset := rfl

end Cursor

namespace Token

structure Spans (source : Bytes) (t : Token) (start stop : Nat) : Prop where
  inside : start ≤ stop ∧ stop ≤ source.length
  lexeme : (source.take stop).drop start = t.lexeme
  place : t.start = .ofOffset source start

theorem spans_prefix {source : Bytes} {start : Nat} {word : Bytes} (inside : start ≤ source.length)
    (front : word <+: source.drop start) (kind : TokenKind) :
    Spans source ⟨kind, word, .ofOffset source start⟩ start (start + word.length) := by
  have size := front.length_le
  rw [List.length_drop] at size
  refine ⟨⟨Nat.le_add_right .., by omega⟩, ?_, rfl⟩
  rw [List.drop_take, Nat.add_sub_cancel_left]
  exact (List.prefix_iff_eq_take.mp front).symm

theorem Spans.proper {source : Bytes} {t : Token} {start stop : Nat} (spans : t.Spans source start stop) (some : t.lexeme ≠ []) :
    start < stop := by
  by_contra none
  refine some (spans.lexeme.symm.trans (List.drop_eq_nil_of_le ?_))
  exact (List.length_take_le ..).trans (Nat.not_lt.mp none)

theorem Spans.stop {source : Bytes} {t : Token} {start stop : Nat} (spans : t.Spans source start stop) :
    t.stop = .ofOffset source stop := by
  have whole : source.take start ++ (source.take stop).drop start = source.take stop := by
    have halves := List.take_append_drop start (source.take stop)
    rwa [List.take_take, Nat.min_eq_left spans.inside.1] at halves
  rw [Token.stop, spans.place, ← spans.lexeme, Position.ofOffset, ← Position.after_append, whole]
  rfl

theorem Spans.inner {source : Bytes} {t : Token} {start stop : Nat} (spans : t.Spans source start stop) {n : Nat}
    (short : n ≤ t.lexeme.length) :
    start + n ≤ source.length ∧ Position.ofOffset source (start + n) = t.start.after (t.lexeme.take n) := by
  have inside := spans.inside
  have lexeme := spans.lexeme
  rw [List.drop_take] at lexeme
  have size := congrArg List.length lexeme
  rw [List.length_take, List.length_drop] at size
  refine ⟨by omega, ?_⟩
  rw [Position.ofOffset_add, spans.place, ← lexeme, List.take_take, Nat.min_eq_left (by omega)]

end Token

namespace Lexer

theorem gapLength_le (inside : Nat) (text : Bytes) : gapLength inside text ≤ text.length := by
  fun_induction gapLength inside text with
  | case1 => exact Nat.zero_le _
  | case2 inside b rest ih => exact Nat.succ_le_succ ih
  | case3 b rest more found ih => exact Nat.succ_le_succ ih
  | case4 => exact Nat.zero_le _

end Lexer

namespace Cursor

variable (source : Bytes) {offset : Nat}

theorem skipGap_ofOffset :
    (ofOffset source offset).skipGap = ofOffset source (offset + Lexer.gapLength 0 (source.drop offset)) :=
  advance_ofOffset source offset _

theorem next_ofOffset (inside : offset ≤ source.length) : ∃ stop,
    (ofOffset source offset).next.1.Spans source (offset + Lexer.gapLength 0 (source.drop offset)) stop ∧
    (ofOffset source offset).next.2 = ofOffset source stop := by
  have short := Lexer.gapLength_le 0 (source.drop offset)
  rw [List.length_drop] at short
  unfold next
  dsimp only
  rw [skipGap_ofOffset]
  generalize reached : offset + Lexer.gapLength 0 (source.drop offset) = start
  have bound : start ≤ source.length := by omega
  split
  · rename_i empty
    have ends : source.length ≤ start := List.drop_eq_nil_iff.mp empty
    refine ⟨start, ⟨⟨le_rfl, bound⟩, ?_, rfl⟩, rfl⟩
    exact List.drop_eq_nil_of_le (List.length_take_le ..)
  · rename_i b rest whole
    generalize Lexer.lexeme (ofOffset source start).fresh b rest = found
    obtain ⟨kind, more⟩ := found
    have longer : start < source.length := by
      by_contra past
      rw [rest_ofOffset, List.drop_eq_nil_of_le (Nat.not_lt.mp past)] at whole
      cases whole
    -- The last lexeme may be cut short by the end of the source.
    refine ⟨min (start + (more + 1)) source.length, ⟨⟨by omega, Nat.min_le_right ..⟩, ?_, rfl⟩, ?_⟩
    · rw [← List.take_eq_take_min, List.drop_take, Nat.add_sub_cancel_left]
      rw [rest_ofOffset] at whole
      rw [whole]
      rfl
    · rw [ofOffset_min]
      exact advance_ofOffset source start _

end Cursor
end DeviceTree
