import DeviceTree.Proofs.Blocks
import DeviceTree.Proofs.Tokens

namespace DeviceTree

-- No prefix has more closing parentheses than opening ones, and there are as many of both.
structure ParensBalanced (text : Bytes) : Prop where
  sane : ∀ front, front <+: text → front.count 0x29 ≤ front.count 0x28
  settled : text.count 0x28 = text.count 0x29

theorem parens_inits {text : Bytes} :
    (∀ front ∈ text.inits, front.count 0x29 ≤ front.count 0x28) ∧ text.count 0x28 = text.count 0x29 ↔
      ParensBalanced text := by
  simp only [List.mem_inits]
  exact ⟨fun both => ⟨both.1, both.2⟩, fun balanced => ⟨balanced.sane, balanced.settled⟩⟩

instance (text : Bytes) : Decidable (ParensBalanced text) := decidable_of_iff _ parens_inits

namespace Group

def Halts (b : UInt8) : Prop := b ∈ utf8 ";\x7b\x7d"

instance (b : UInt8) : Decidable (Halts b) := inferInstanceAs (Decidable (b ∈ utf8 ";\x7b\x7d"))

theorem scan_other {b : UInt8} (opens : b ≠ 0x28) (closes : b ≠ 0x29) (goes : ¬ Halts b) (d : Nat) (rest : Bytes) :
    scan d (b :: rest) = ⟨b :: (scan d rest).text, (scan d rest).closed⟩ := by
  rw [scan]
  split
  case h_1 same => exact absurd (byte_of_char same) opens
  case h_2 same => exact absurd (byte_of_char same) closes
  case h_6 => rfl
  all_goals
    rename_i same
    exact absurd (byte_of_char same ▸ (by decide)) goes

theorem scan_halts {b : UInt8} (halts : Halts b) (d : Nat) (rest : Bytes) : scan d (b :: rest) = ⟨[], false⟩ := by
  have marks : ∀ b : UInt8, Halts b → b = 0x3b ∨ b = 0x7b ∨ b = 0x7d := forall_byte (by decide +kernel)
  rcases marks b halts with rfl | rfl | rfl <;> rfl

-- What follows one byte of a group is the whole of what follows it, at another depth.
theorem scan_deeper {d e : Nat} {b : UInt8} {rest : Bytes}
    (step : scan d (b :: rest) = ⟨b :: (scan e rest).text, (scan e rest).closed⟩) :
    scan d (b :: rest) = ⟨b :: rest, true⟩ ↔ scan e rest = ⟨rest, true⟩ := by
  rw [step]
  generalize scan e rest = g
  obtain ⟨text, closed⟩ := g
  simp

theorem scan_all_iff (text : Bytes) (d : Nat) : scan (d + 1) (text ++ [0x29]) = ⟨text ++ [0x29], true⟩ ↔
    (∀ b ∈ text, ¬ Halts b) ∧ (∀ front, front <+: text → front.count 0x29 ≤ d + front.count 0x28) ∧
      d + text.count 0x28 = text.count 0x29 := by
  induction text generalizing d with
  | nil =>
    cases d with
    | zero => exact ⟨fun _ => by simp, fun _ => rfl⟩
    | succ d =>
      have inside : scan (d + 2) [0x29] = ⟨[0x29], false⟩ := rfl
      simp [inside]
  | cons b rest ih =>
    have prefixes : (∀ front, front <+: b :: rest → front.count 0x29 ≤ d + front.count 0x28) ↔
        ∀ front, front <+: rest → (b :: front).count 0x29 ≤ d + (b :: front).count 0x28 :=
      forall_prefix_cons_iff (Nat.zero_le _)
    rw [prefixes, List.cons_append, List.forall_mem_cons]
    by_cases halts : Halts b
    · rw [scan_halts halts]
      simp [halts]
    rw [and_iff_right halts]
    by_cases opens : b = 0x28
    · subst opens
      rw [scan_deeper (e := d + 2) rfl, ih (d + 1)]
      simp only [List.count_cons]
      grind
    by_cases closes : b = 0x29
    · subst closes
      cases d with
      | zero =>
        have short : scan 1 (0x29 :: (rest ++ [0x29])) = ⟨[0x29], true⟩ := rfl
        rw [short]
        constructor
        · intro same
          simp at same
        · rintro ⟨-, all, -⟩
          exact absurd (all [] List.nil_prefix) (by decide)
      | succ d =>
        rw [scan_deeper (e := d + 1) rfl, ih d]
        simp only [List.count_cons]
        grind
    · rw [scan_deeper (scan_other opens closes halts _ _), ih d]
      simp only [List.count_cons]
      grind

theorem scan_balanced_iff (text : Bytes) : scan 1 (text ++ [0x29]) = ⟨text ++ [0x29], true⟩ ↔
    (∀ b ∈ text, ¬ Halts b) ∧ ParensBalanced text := by
  rw [scan_all_iff text 0]
  simp only [Nat.zero_add]
  exact and_congr_right' ⟨fun both => ⟨both.1, both.2⟩, fun balanced => ⟨balanced.sane, balanced.settled⟩⟩

end Group

namespace Expr

variable {text : Bytes}

def Quoted (b : UInt8) (text : Bytes) : Prop := [0x27, b, 0x27] <:+: text

instance (b : UInt8) (text : Bytes) : Decidable (Quoted b text) := inferInstanceAs (Decidable ([0x27, b, 0x27] <:+: text))

theorem halts_outside : ∀ b : UInt8, Group.Halts b → b < 0x80 ∧ Bytes.isWord b = false ∧ Decimal.isSign b = false ∧
    b ≠ 0x27 ∧ b ≠ 0x2e ∧ b ≠ 0x28 ∧ b ≠ 0x29 ∧ b ≠ 0x5c ∧ isBlank b = false ∧ escapedChar b = none :=
  forall_byte (by decide +kernel)

theorem operator_goes : ∀ s ∈ Operator.spellings, ∀ b ∈ s.1, ¬ Group.Halts b := by decide +kernel

theorem numeral_goes {v : Int64} {n : Nat} (read : numeral text = some (v, n)) :
    0 < n ∧ ∀ b ∈ text.take n, ¬ Group.Halts b := by
  obtain ⟨word, tail, split, length, literal, shape⟩ := literal_of_numeral read
  obtain ⟨first, rest, front, -⟩ := literal.first
  subst split length
  rw [List.take_left]
  refine ⟨front ▸ Nat.succ_pos _, ?_⟩
  intro b member halts
  obtain ⟨-, outside, sign, -, point, -⟩ := halts_outside b halts
  obtain ⟨digit, hex, mark, hexMark, -⟩ := byte_outside_word b outside
  rcases shape with ⟨⟨m, digits, same, marked, all⟩, -⟩ | ⟨shaped, -⟩
  · subst same
    rcases List.mem_cons.mp member with rfl | later
    · exact absurd outside (by decide)
    rcases List.mem_cons.mp later with rfl | inside
    · exact absurd (marked.symm.trans hexMark) (by decide)
    · exact absurd ((all b inside).symm.trans hex) (by decide)
  · rcases shaped.bytes b member with other | other | other | other
    · exact absurd (other.symm.trans mark) (by decide)
    · exact absurd (other.symm.trans sign) (by decide)
    · exact absurd (other.symm.trans digit) (by decide)
    · exact point other

theorem character_halts {v : Int64} {n : Nat} (read : character text = some (v, n)) {b : UInt8}
    (member : b ∈ text.take n) (halts : Group.Halts b) : text.take n = [b, 0x27] := by
  obtain ⟨small, -, -, quote, -, -, -, slash, -, plain⟩ := halts_outside b halts
  rcases character_cut read with ⟨letter, tail, split, length, code⟩ | ⟨body, rune, tail, split, length, one, -, -, -⟩
  · subst split length
    rw [show ([0x5c, letter, 0x27] ++ tail).take 3 = [0x5c, letter, 0x27] from rfl] at member
    simp only [List.mem_cons, List.not_mem_nil, or_false, slash, quote, false_or] at member
    rw [← member, plain] at code
    cases code
  · subst split length
    rw [Lexer.take_with] at member ⊢
    rcases List.mem_append.mp member with inside | last
    · rcases decode_single one with ⟨c, single⟩ | large
      · subst single
        rw [List.mem_singleton.mp inside]
        rfl
      · exact absurd small (large b inside)
    · exact absurd (List.mem_singleton.mp last) quote

-- Of all tokens only a character literal can hold such a byte, and then it holds nothing else.
theorem token_halts {first : UInt8} {rest : Bytes} {token : Token} {n : Nat} (read : Token.read? first rest = some (token, n))
    {b : UInt8} (member : b ∈ first :: rest.take n) (halts : Group.Halts b) : first :: rest.take n = [0x27, b, 0x27] := by
  obtain ⟨-, -, -, quote, -, opens, closes, -⟩ := halts_outside b halts
  unfold Token.read? at read
  split at read
  · cases read
    exact absurd ((List.mem_singleton.mp member).trans ‹_›) opens
  split at read
  · cases read
    exact absurd ((List.mem_singleton.mp member).trans ‹_›) closes
  split at read
  · rename_i mark
    subst mark
    obtain ⟨⟨v, n⟩, found, same⟩ := Option.map_eq_some_iff.mp read
    cases same
    rcases List.mem_cons.mp member with rfl | inside
    · exact absurd rfl quote
    · rw [character_halts found inside halts]
  split at read
  · obtain ⟨⟨v, k⟩, found, same⟩ := Option.map_eq_some_iff.mp read
    cases same
    obtain ⟨positive, goes⟩ := numeral_goes found
    rw [← List.take_succ_cons, Nat.sub_add_cancel positive] at member
    exact absurd halts (goes b member)
  · obtain ⟨⟨op, n⟩, found, same⟩ := Option.map_eq_some_iff.mp read
    cases same
    obtain ⟨more, tail, split, length, spelled⟩ := operator_cut found
    subst split length
    rw [List.take_left] at member
    exact absurd halts (operator_goes _ spelled b member)

theorem tokens_halts {tokens : List Token} (read : tokens? text = some tokens) {b : UInt8} (member : b ∈ text)
    (halts : Group.Halts b) : Quoted b text := by
  fun_induction tokens? text generalizing tokens with
  | case1 => cases member
  | case2 first rest blank ih =>
    rcases List.mem_cons.mp member with rfl | later
    · rw [(halts_outside b halts).2.2.2.2.2.2.2.2.1] at blank
      cases blank
    · exact (ih read later).trans (List.suffix_cons _ _).isInfix
  | case3 first rest blank token n found ih =>
    obtain ⟨others, behind, -⟩ := Option.map_eq_some_iff.mp read
    have parts : first :: rest = (first :: rest.take n) ++ rest.drop n := by rw [List.cons_append, List.take_append_drop]
    rw [parts] at member ⊢
    rcases List.mem_append.mp member with here | later
    · rw [token_halts found here halts]
      exact (List.prefix_append _ _).isInfix
    · exact (ih behind later).trans (List.suffix_append _ _).isInfix
  | case4 => cases read

theorem infix_behind {c : UInt8} {word front back : Bytes} (apart : c ∉ front) (inside : c :: word <:+: front ++ back) :
    c :: word <:+: back := by
  induction front with
  | nil => exact inside
  | cons b rest ih =>
    rw [List.mem_cons, not_or] at apart
    rcases List.infix_cons_iff.mp inside with first | later
    · exact absurd (List.cons_prefix_cons.mp first).1 apart.1
    · exact ih apart.2 later

theorem quoted_of_strip {b : UInt8} (outside : Bytes.isWord b = false) {inWord : Bool}
    (quoted : Quoted b (Suffix.stripAfter inWord text)) : Quoted b text := by
  induction inWord, text using Suffix.strip_induction with
  | nil inWord => rwa [Suffix.stripAfter] at quoted
  | pass inWord c rest stripped ih =>
    rw [stripped] at quoted
    rcases List.infix_cons_iff.mp quoted with front | later
    · obtain ⟨rfl, left, same⟩ := List.cons_prefix_cons.mp front
      have both : ∀ c ∈ [b, 0x27], Bytes.isWord c = false := by simp [outside]; rfl
      obtain ⟨behind, same', -, -⟩ := begins_others both same.symm
      rw [same']
      exact (List.prefix_append [0x27, b, 0x27] behind).isInfix
    · exact (ih later).trans (List.suffix_cons _ _).isInfix
  | cut inWord text body sfx tail cut stripped ih =>
    rw [stripped] at quoted
    rw [cut.parts, ← List.append_assoc]
    exact (ih (infix_behind cut.unquoted quoted)).trans (List.suffix_append _ _).isInfix

end Expr

namespace Text

theorem encode_decode (text : Bytes) : encode (decode text) = text := by
  match text with
  | [] => rw [decode]; rfl
  | a :: rest =>
    have later := encode_decode (rest.drop (decodeAfter a rest).2)
    rw [decode]
    generalize read : decodeAfter a rest = found at later
    obtain ⟨first, more⟩ := found
    rw [encode, List.flatMap_cons, ← encode, later]
    cases first with
    | scalar code => rw [Rune.encode, (decodeAfter_encode read).1, List.cons_append, List.take_append_drop]
    | stray s =>
      obtain ⟨rfl, rfl, -⟩ := decodeAfter_stray read
      rfl
termination_by text.length
decreasing_by simp only [List.length_drop, List.length_cons]; omega

theorem decode_last (front : Bytes) {b : UInt8} (small : b < 0x80) :
    ∃ runes, decode (front ++ [b]) = runes ++ [.scalar b.toNat] := by
  match front with
  | [] => exact ⟨[], decode_ascii (by simpa using small)⟩
  | a :: rest =>
    have short : (decodeAfter a (rest ++ [b])).2 ≤ rest.length := by
      generalize read : decodeAfter a (rest ++ [b]) = found
      obtain ⟨first, more⟩ := found
      cases first with
      | scalar code =>
        rcases (decodeAfter_encode read).2.2 with ⟨-, none⟩ | ⟨-, large⟩
        · exact none ▸ Nat.zero_le _
        · by_contra beyond
          have whole : (rest ++ [b]).take more = rest ++ [b] := by
            refine List.take_of_length_le ?_
            rw [List.length_append, List.length_singleton]
            omega
          exact large b (by rw [whole]; exact List.mem_append_right _ (List.mem_singleton.mpr rfl)) small
      | stray s => exact (decodeAfter_stray read).2.1 ▸ Nat.zero_le _
    obtain ⟨runes, same⟩ := decode_last (rest.drop (decodeAfter a (rest ++ [b])).2) small
    refine ⟨(decodeAfter a (rest ++ [b])).1 :: runes, ?_⟩
    rw [List.cons_append, decode]
    dsimp only
    rw [List.drop_append_of_le_length short, same, List.cons_append]
termination_by front.length
decreasing_by simp only [List.length_drop, List.length_cons]; omega

theorem trimSpace_between {a b : UInt8} (front : Bytes) (first : a < 0x80 ∧ (Rune.scalar a.toNat).isSpace = false)
    (last : b < 0x80 ∧ (Rune.scalar b.toNat).isSpace = false) : trimSpace (a :: (front ++ [b])) = a :: (front ++ [b]) := by
  have kept : ∀ {r : Rune} {runes : List Rune}, r.isSpace = false → (r :: runes).dropWhile Rune.isSpace = r :: runes :=
    fun solid => List.dropWhile_cons_of_neg (by simp [solid])
  have begins : decode (a :: (front ++ [b])) = .scalar a.toNat :: decode (front ++ [b]) := by
    rw [decode, decodeAfter.eq_def, if_pos first.1]
    rfl
  obtain ⟨runes, ends⟩ := decode_last front last.1
  have whole : ((decode (a :: (front ++ [b]))).dropWhile Rune.isSpace).reverse.dropWhile Rune.isSpace =
      (decode (a :: (front ++ [b]))).reverse := by
    rw [begins, kept first.2, ends, ← List.cons_append, List.reverse_append, List.reverse_singleton, List.singleton_append,
      kept last.2]
  rw [trimSpace, whole, List.reverse_reverse, encode_decode]

end Text

def cellText (e : Bytes) : Bytes := 0x28 :: (e ++ [0x29])

namespace Expr

theorem quoted_inside {b : UInt8} {e : Bytes} (quoted : Quoted b (cellText e)) : Quoted b e := by
  have apart : (0x27 : UInt8) ∉ [0x28] := by decide
  have behind : Quoted b (e ++ [0x29]) := infix_behind apart quoted
  rcases List.infix_concat_iff.mp behind with last | inside
  · obtain ⟨front, same⟩ := last
    have ends := congrArg List.getLast? same
    simp at ends
  · exact inside

-- An expression that has a value holds what would end its group in a character literal at most.
theorem value_goes {e : Bytes} {v : Int64} (value : value? (cellText e) = some v)
    (plain : ∀ b, Group.Halts b → ¬ Quoted b e) : ∀ b ∈ e, ¬ Group.Halts b := by
  intro b member halts
  obtain ⟨tree, parsed, -⟩ := Option.bind_eq_some_iff.mp value
  obtain ⟨tokens, read, -⟩ := Option.bind_eq_some_iff.mp parsed
  have outside := (halts_outside b halts).2.1
  have whole : Text.trimSpace (cellText e) = cellText e := Text.trimSpace_between e (by decide) (by decide)
  have inside : b ∈ cellText e := List.mem_cons_of_mem _ (List.mem_append_left _ member)
  rw [whole, Suffix.strip] at read
  have quoted := tokens_halts read (Suffix.mem_strip outside _ inside) halts
  exact plain b halts (quoted_inside (quoted_of_strip outside quoted))

end Expr

def cellSource (e : Bytes) : Bytes := utf8 "/ \x7b p = <" ++ (cellText e ++ utf8 ">; \x7d;")

structure CellRead (e : Bytes) (v : Int64) : Prop where
  silent : (Document.parse (cellSource e)).errors = []
  cell : ∃ root p a range, (Document.parse (cellSource e)).items = [.node root] ∧ root.head.heading = .name (utf8 "/") ∧
    root.body = [.property p] ∧ p.name = utf8 "p" ∧ p.values = [.array a] ∧ a.cells = [.int range (cellText e) (some v)]

theorem cellSource_eq (e : Bytes) : cellSource e =
    utf8 "/ \x7b p =" ++ (utf8 " <(" ++ (e ++ [0x29] ++ (utf8 ">;" ++ utf8 " \x7d;"))) := by
  have front : utf8 "/ \x7b p = <" = utf8 "/ \x7b p =" ++ utf8 " <" := rfl
  have back : utf8 ">; \x7d;" = utf8 ">;" ++ utf8 " \x7d;" := rfl
  have group : utf8 " <(" = utf8 " <" ++ [0x28] := rfl
  simp [cellSource, cellText, front, back, group]

namespace Parser

open Lexer

theorem cells_lparen {s : State} (kind : s.peek.kind = .lparen) {text : Bytes} (opened : s.take.cursor.At text) (fuel : Nat) :
    ∃ range more, (cells (fuel + 1) s).1 = .int range (0x28 :: (Group.scan 1 text).text)
      (if (Group.scan 1 text).closed then Expr.value? (0x28 :: (Group.scan 1 text).text) else none) :: more := by
  rw [cells]
  simp only [kind, opened.1]
  split
  · exact ⟨_, _, rfl⟩
  · exact ⟨_, _, rfl⟩

theorem values_head {s after : State} {v : Value} (first : value s = (some v, after)) (fuel : Nat) (stop : Position) :
    ∃ more, (values (fuel + 1) stop s).1 = v :: more := by
  by_cases comma : after.peek.kind = .comma
  · rw [values_more first comma]
    exact ⟨_, rfl⟩
  · rw [values_last first comma]
    exact ⟨_, rfl⟩

theorem body_property {s : State} (named : s.peek.kind = .name) (equal : s.take.peek.kind = .equal) (fuel : Nat) :
    body (fuel + 2) s = (.property (property [] s.peek s.take.take).1 ::
        (body (fuel + 1) (property [] s.peek s.take.take).2).1, (body (fuel + 1) (property [] s.peek s.take.take).2).2) := by
  have stmt : statement (fuel + 1) s =
      (some (.property (property [] s.peek s.take.take).1), (property [] s.peek s.take.take).2) := by
    rw [statement_name named, declared]
    simp only [equal]
  rw [body]
  simp only [named, stmt]
  rfl

theorem root_property {s : State} {tail : Bytes} (facing : s.cursor.Facing true (utf8 "/ \x7b p =" ++ tail)) :
    s.peek.kind ≠ .eof ∧ ∃ name mid k root, name.text = utf8 "p" ∧ mid.cursor.At tail ∧ mid.errors = s.errors ∧
      (item s.rounds s).1 = some (.node root) ∧ root.head.heading = .name (utf8 "/") ∧
      root.body = .property (property [] name mid).1 :: (body (k + 1) (property [] name mid).2).1 ∧
      (item s.rounds s).2 = (body (k + 1) (property [] name mid).2).2.2.2 := by
  have text : utf8 "/ \x7b p =" ++ tail =
      [0x2f] ++ ([0x20, 0x7b] ++ ([0x20] ++ ([0x70] ++ ([0x20] ++ ([0x3d] ++ tail))))) := rfl
  rw [text] at facing
  have slash : Reads true .slash ([0x20, 0x7b] ++ ([0x20] ++ ([0x70] ++ ([0x20] ++ ([0x3d] ++ tail))))) [0x2f] :=
    .intro rfl rfl ⟨0x2f, rfl, rfl⟩
  obtain ⟨root, -, begun⟩ := State.read facing slash
  obtain ⟨brace, opened⟩ := brace_read begun
  have proper : IsName [0x70] := ⟨by decide, by decide, by decide⟩
  have ends : Ends ([0x20] ++ ([0x3d] ++ tail)) := by
    rintro b ⟨⟩
    decide
  obtain ⟨named, lexeme, after⟩ :=
    State.read (opened.facing (by decide)) (.of_name proper ends fun fresh : false = true => nomatch fresh)
  obtain ⟨equal, -, assigned⟩ := State.read (after.facing (by decide)) (reads_mark .equal rfl false _)
  refine ⟨by rw [root]; decide, s.take.take.peek, s.take.take.take.take, 2 * s.cursor.rest.length + 1, ?_⟩
  have inside := body_property named equal (2 * s.cursor.rest.length + 1)
  have step : item s.rounds s = headed [] s := by
    have labelled : item s.rounds s = headed (labels s.rounds s).1 (labels s.rounds s).2 := item_eq (by simp [root])
    rwa [labels_none (by rw [root]; decide)] at labelled
  have kept : ∀ s : State, s.take.errors = s.errors := fun _ => rfl
  rw [step, headed, if_pos (by simp [root])]
  refine ⟨_, ?_, assigned, by rw [kept, kept, kept, kept], rfl, ?_, ?_, ?_⟩
  · rw [text_eq named (by decide), lexeme]
    rfl
  · rw [(node_head _ _ _ _).2, headingOf]
    simp only [root]
  · rw [State.fuel, node]
    simp only [brace, if_true, inside]
  · rw [State.fuel, node]
    simp only [brace, if_true, inside]

theorem group_opened {s : State} {text : Bytes} (stands : s.cursor.At (utf8 " <(" ++ text)) :
    s.peek.kind = .langle ∧ s.take.peek.kind = .lparen ∧ s.take.rounds = text.length + 2 ∧ s.take.take.cursor.At text := by
  have parts : utf8 " <(" ++ text = [0x20] ++ ([0x3c] ++ ([0x28] ++ text)) := rfl
  rw [parts] at stands
  obtain ⟨angle, -, inside⟩ := State.read (stands.facing (by decide)) (reads_mark .langle rfl false _)
  obtain ⟨paren, -, opened⟩ := State.read inside.facing_word (reads_mark .lparen rfl false _)
  exact ⟨angle, paren, by rw [State.rounds, inside.1]; rfl, opened⟩

theorem value_angle {s : State} (angle : s.peek.kind = .langle) :
    value s = (some (.array (array s.peek .w32 s.take).1), (array s.peek .w32 s.take).2) := by
  rw [value]
  simp only [angle]

theorem property_group (name : Token) {s : State} {text : Bytes} (stands : s.cursor.At (utf8 " <(" ++ text)) :
    ∃ a others range cells, (property [] name s).1.values = .array a :: others ∧
      a.cells = .int range (0x28 :: (Group.scan 1 text).text)
        (if (Group.scan 1 text).closed then Expr.value? (0x28 :: (Group.scan 1 text).text) else none) :: cells := by
  obtain ⟨angle, paren, enough, opened⟩ := group_opened stands
  obtain ⟨others, values⟩ := values_head (value_angle angle) s.cursor.rest.length name.stop
  obtain ⟨range, more, found⟩ := cells_lparen paren opened (text.length + 1)
  rw [← enough] at found
  exact ⟨_, others, range, more, values, found⟩

theorem property_closed (name : Token) {s : State} {e tail : Bytes}
    (stands : s.cursor.At (utf8 " <(" ++ (e ++ [0x29] ++ (utf8 ">;" ++ tail))))
    (closed : Group.scan 1 (e ++ [0x29]) = ⟨e ++ [0x29], true⟩) :
    ∃ a range, (property [] name s).1.values = [.array a] ∧
      a.cells = [.int range (cellText e) (Expr.value? (cellText e))] ∧
      (property [] name s).2.errors = s.errors ∧ (property [] name s).2.cursor.At tail := by
  obtain ⟨angle, paren, enough, opened⟩ := group_opened stands
  obtain ⟨range, after, ends, same, first⟩ :=
    @cells_group ((e ++ [0x29] ++ (utf8 ">;" ++ tail)).length + 1) _ _ _ paren opened closed
  have right : after.cursor.Facing false ([0x3e] ++ ([0x3b] ++ tail)) := ends.facing_word
  obtain ⟨shut, -, behind⟩ := State.read right (reads_mark .rangle rfl false _)
  obtain ⟨mark, -, done⟩ := State.read behind.facing_word (reads_mark .semicolon rfl false _)
  have last : ∀ fuel, cells (fuel + 1) after = ([], after.peek.stop, after.take) := by
    intro fuel
    rw [cells]
    simp only [shut]
  have all : array s.peek .w32 s.take = (⟨⟨s.peek.start, after.peek.stop⟩, .w32,
      [.int range (cellText e) (Expr.value? (cellText e))]⟩, after.take) := by
    rw [array, enough, first, last]
    rfl
  have values := values_last ((value_angle angle).trans (by rw [all])) (by rw [mark]; decide) s.cursor.rest.length name.stop
  have step : property [] name s = (propertyDecl [] name after.take.peek.stop [.array ⟨⟨s.peek.start, after.peek.stop⟩, .w32,
      [.int range (cellText e) (Expr.value? (cellText e))]⟩], after.take.take) := by
    rw [property_eq, State.rounds, values, ended]
    simp only [mark, if_true]
  rw [step]
  exact ⟨_, range, rfl, rfl, same, done⟩

theorem items_only {s : State} (more : s.peek.kind ≠ .eof) (last : (item s.rounds s).2.cursor.At []) (fuel : Nat) :
    items (fuel + 1) s = ((item s.rounds s).1.toList, (item s.rounds s).2) := by
  rw [items_item more]
  generalize item s.rounds s = found at last
  have ends : found.2.peek.kind = .eof := last.facing_word.eof
  rw [items_end ends, List.append_nil]

theorem parse_property (text : Bytes) (fine : PropertyDecl → Prop)
    (read : ∀ name s, s.cursor.At (text ++ utf8 " \x7d;") → fine (property [] name s).1 ∧ (property [] name s).2.errors = s.errors ∧
      (property [] name s).2.cursor.At (utf8 " \x7d;")) :
    (Document.parse (utf8 "/ \x7b p =" ++ (text ++ utf8 " \x7d;"))).errors = [] ∧
      ∃ root p, (Document.parse (utf8 "/ \x7b p =" ++ (text ++ utf8 " \x7d;"))).items = [.node root] ∧
        root.head.heading = .name (utf8 "/") ∧ root.body = [.property p] ∧ p.name = utf8 "p" ∧ fine p := by
  have facing := Cursor.facing_start (utf8 "/ \x7b p =" ++ (text ++ utf8 " \x7d;"))
  obtain ⟨more, name, mid, k, root, named, stands, same, found, heading, inside, after⟩ :=
    root_property (s := .start (utf8 "/ \x7b p =" ++ (text ++ utf8 " \x7d;"))) facing
  obtain ⟨good, quiet, ends⟩ := read name mid stands
  have brace : (property [] name mid).2.cursor.At ([0x20] ++ (utf8 "\x7d;" ++ [])) := ends
  obtain ⟨nothing, still, done⟩ := body_close (brace.facing (by decide)) k
  rw [← after] at done still
  have only := items_only more done (State.start (utf8 "/ \x7b p =" ++ (text ++ utf8 " \x7d;"))).cursor.rest.length
  refine ⟨?_, root, (property [] name mid).1, ?_, heading, ?_, ?_, good⟩
  · rw [Document.parse_errors, State.rounds, only, still, quiet, same]
    rfl
  · rw [Document.parse_items, State.rounds, only, found]
    rfl
  · rw [inside, nothing]
  · rw [property_eq]
    exact named

theorem cellRead_iff_closed {e : Bytes} {v : Int64} (value : Expr.value? (cellText e) = some v) :
    CellRead e v ↔ Group.scan 1 (e ++ [0x29]) = ⟨e ++ [0x29], true⟩ := by
  have facing := Cursor.facing_start (cellSource e)
  rw [cellSource_eq] at facing
  obtain ⟨more, name, mid, k, root, named, stands, same, found, heading, inside, after⟩ :=
    root_property (s := .start (cellSource e)) facing
  constructor
  · rintro ⟨-, root', p, a, range, items, -, body, -, values, cells⟩
    rw [Document.parse_items, State.rounds, items_item more, found] at items
    cases (List.cons.inj items).1
    rw [inside] at body
    cases (List.cons.inj body).1
    obtain ⟨a', others, range', cells', values', found'⟩ := property_group name stands
    rw [values'] at values
    cases (List.cons.inj values).1
    rw [found'] at cells
    obtain ⟨-, text, result⟩ := Cell.int.inj (List.cons.inj cells).1
    generalize scanned : Group.scan 1 (e ++ [0x29] ++ (utf8 ">;" ++ utf8 " \x7d;")) = g at text result
    obtain ⟨found, closed⟩ := g
    cases (List.cons.inj text).2
    cases closed with
    | false => cases result
    | true =>
      have again := (scan_closed scanned).2.2 []
      rwa [List.append_nil] at again
  · intro closed
    have read := parse_property (utf8 " <(" ++ (e ++ [0x29] ++ utf8 ">;")) (fun p => ∃ a range,
        p.values = [.array a] ∧ a.cells = [.int range (cellText e) (Expr.value? (cellText e))]) fun name s stands => by
      have parts : utf8 " <(" ++ (e ++ [0x29] ++ utf8 ">;") ++ utf8 " \x7d;" =
          utf8 " <(" ++ (e ++ [0x29] ++ (utf8 ">;" ++ utf8 " \x7d;")) := by simp only [List.append_assoc]
      rw [parts] at stands
      obtain ⟨a, range, values, cells, quiet, ends⟩ := property_closed name stands closed
      exact ⟨⟨a, range, values, cells⟩, quiet, ends⟩
    simp only [List.append_assoc] at read
    have whole : cellSource e = utf8 "/ \x7b p =" ++ (utf8 " <(" ++ (e ++ ([0x29] ++ (utf8 ">;" ++ utf8 " \x7d;")))) := by
      rw [cellSource_eq]
      simp only [List.append_assoc]
    rw [← whole] at read
    obtain ⟨silent, root, p, items, heading, body, named, a, range, values, cells⟩ := read
    exact ⟨silent, root, p, a, range, items, heading, body, named, values, value ▸ cells⟩

end Parser

-- Where an expression has a value and no character literal of it holds a byte that the parser would count or stop at, the
-- cell between its parentheses has that value just if they belong together.
theorem Document.cell_agrees_iff {e : Bytes} {v : Int64} (value : Expr.value? (cellText e) = some v)
    (plain : ∀ b ∈ utf8 "();\x7b\x7d", ¬ Expr.Quoted b e) : CellRead e v ↔ ParensBalanced e := by
  have halting : ∀ b, Group.Halts b → b ∈ utf8 "();\x7b\x7d" :=
    fun b halts => List.mem_cons_of_mem _ (List.mem_cons_of_mem _ halts)
  rw [Parser.cellRead_iff_closed value, Group.scan_balanced_iff]
  exact and_iff_right (Expr.value_goes value fun b halts => plain b (halting b halts))

theorem Document.nested_group_agrees : Expr.value? (cellText (utf8 "(1 + 2) * 'a'")) = some 291 ∧
    (∀ b ∈ utf8 "();\x7b\x7d", ¬ Expr.Quoted b (utf8 "(1 + 2) * 'a'")) ∧ CellRead (utf8 "(1 + 2) * 'a'") 291 := by
  have value : Expr.value? (cellText (utf8 "(1 + 2) * 'a'")) = some 291 := by cbv
  have plain : ∀ b ∈ utf8 "();\x7b\x7d", ¬ Expr.Quoted b (utf8 "(1 + 2) * 'a'") := by decide +kernel
  exact ⟨value, plain, (Document.cell_agrees_iff value plain).mpr (by decide +kernel)⟩

-- Two groups with a sign between them are one expression, and three cells.
theorem Document.two_groups_disagree : ¬ ∀ e v, Expr.value? (cellText e) = some v → CellRead e v := by
  intro law
  have value : Expr.value? (cellText (utf8 "1)+(2")) = some 3 := by cbv
  have closed := (Parser.cellRead_iff_closed value).mp (law _ _ value)
  exact absurd closed (by decide +kernel)

end DeviceTree
