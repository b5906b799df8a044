import DeviceTree.Proofs.Groups
import DeviceTree.Proofs.Places

namespace DeviceTree
namespace Text

theorem toNat_toUInt8 {n : Nat} (small : n < 256) : n.toUInt8.toNat = n := UInt8.toNat_ofNat_of_lt' small

theorem encodeCode_char (c : Char) : encodeCode c.toNat = String.utf8EncodeChar c := by
  have valid : c.toNat < 0xd800 ∨ 0xdfff < c.toNat ∧ c.toNat < 0x110000 := c.valid
  have same : ∀ {m n : Nat}, m = n → m.toUInt8 = UInt8.ofNat n := fun equal => equal ▸ rfl
  unfold String.utf8EncodeChar encodeCode
  unfold Char.toNat at valid ⊢
  generalize c.val.toNat = code at valid
  dsimp only
  by_cases one : code < 0x80
  · rw [if_pos one, if_pos (by omega)]
  rw [if_neg one, if_neg (c := code ≤ 127) (by omega)]
  by_cases two : code < 0x800
  · rw [if_pos two, if_pos (by omega), same (n := code / 64 % 32 + 192) (by omega), same (n := code % 64 + 128) (by omega)]
  have proper : ¬ ((0xd800 ≤ code && code ≤ 0xdfff || 0x110000 ≤ code) = true) := by
    simp only [Bool.or_eq_true, Bool.and_eq_true, decide_eq_true_eq]
    omega
  rw [if_neg two, if_neg (c := code ≤ 2047) (by omega), if_neg proper]
  by_cases three : code < 0x10000
  · rw [if_pos three, if_pos (by omega), same (n := code / 4096 % 16 + 224) (by omega),
      same (n := code / 64 % 64 + 128) (by omega), same (n := code % 64 + 128) (by omega)]
  · rw [if_neg three, if_neg (by omega), same (n := code / 262144 % 8 + 240) (by omega),
      same (n := code / 4096 % 64 + 128) (by omega), same (n := code / 64 % 64 + 128) (by omega),
      same (n := code % 64 + 128) (by omega)]

theorem decodeAfter_valid {a : UInt8} {rest : Bytes} {code more : Nat} (read : decodeAfter a rest = (.scalar code, more)) :
    code.isValidChar := by
  have payloads : ∀ b, payload b < 64 := fun b => Nat.mod_lt _ (by decide)
  rcases decodeAfter_scalar read with ⟨small, rfl, -⟩ | ⟨b, -, -, -, -, rfl, -⟩ | ⟨b, c, -, -, first, allowed, -, rfl, -⟩ |
      ⟨b, c, d, -, -, first, allowed, -, -, rfl, -⟩
  · have below : a.toNat < 0x80 := UInt8.lt_iff_toNat_lt.mp small
    exact .inl (by omega)
  · have low := payloads b
    exact .inl (by omega)
  · obtain ⟨middle, -, surrogate, -⟩ := second_bounds allowed
    have low := payloads c
    have bounds : 0xe0 ≤ a.toNat ∧ a.toNat ≤ 0xef := ⟨UInt8.le_iff_toNat_le.mp first.1, UInt8.le_iff_toNat_le.mp first.2⟩
    have high : payload b = b.toNat - 0x80 := by
      unfold payload
      omega
    unfold Nat.isValidChar
    omega
  · obtain ⟨middle, -, -, short, large⟩ := second_bounds allowed
    have low := payloads c
    have lower := payloads d
    have bounds : 0xf0 ≤ a.toNat ∧ a.toNat ≤ 0xf4 := ⟨UInt8.le_iff_toNat_le.mp first.1, UInt8.le_iff_toNat_le.mp first.2⟩
    have high : payload b = b.toNat - 0x80 := by
      unfold payload
      omega
    unfold Nat.isValidChar
    omega

theorem decodeAfter_two {a b : UInt8} (first : 0xc2 ≤ a.toNat ∧ a.toNat ≤ 0xdf) (second : isContinuation b = true)
    (tail : Bytes) : decodeAfter a (b :: tail) = (.scalar (a.toNat % 32 * 64 + payload b), 1) := by
  have large : ¬ a < 0x80 := by
    simp [UInt8.lt_iff_toNat_lt]
    omega
  have lead : 0xc2 ≤ a ∧ a ≤ 0xdf := by simpa [UInt8.le_iff_toNat_le] using first
  simp [decodeAfter.eq_def, large, lead, second]

theorem decodeAfter_three {a b c : UInt8} (first : 0xe0 ≤ a.toNat ∧ a.toNat ≤ 0xef) (second : secondAllowed a b = true)
    (third : isContinuation c = true) (tail : Bytes) :
    decodeAfter a (b :: c :: tail) = (.scalar (a.toNat % 16 * 4096 + payload b * 64 + payload c), 2) := by
  have large : ¬ a < 0x80 ∧ ¬ (0xc2 ≤ a ∧ a ≤ 0xdf) := by
    simp [UInt8.lt_iff_toNat_lt, UInt8.le_iff_toNat_le]
    omega
  have lead : 0xe0 ≤ a ∧ a ≤ 0xef := by simpa [UInt8.le_iff_toNat_le] using first
  simp [decodeAfter.eq_def, large, lead, second, third]

theorem decodeAfter_four {a b c d : UInt8} (first : 0xf0 ≤ a.toNat ∧ a.toNat ≤ 0xf4) (second : secondAllowed a b = true)
    (third : isContinuation c = true) (fourth : isContinuation d = true) (tail : Bytes) :
    decodeAfter a (b :: c :: d :: tail) =
      (.scalar (a.toNat % 8 * 262144 + payload b * 4096 + payload c * 64 + payload d), 3) := by
  have large : ¬ a < 0x80 ∧ ¬ (0xc2 ≤ a ∧ a ≤ 0xdf) ∧ ¬ (0xe0 ≤ a ∧ a ≤ 0xef) := by
    simp [UInt8.lt_iff_toNat_lt, UInt8.le_iff_toNat_le]
    omega
  have lead : 0xf0 ≤ a ∧ a ≤ 0xf4 := by simpa [UInt8.le_iff_toNat_le] using first
  simp [decodeAfter.eq_def, large, lead, second, third, fourth]

theorem continuation_read (n : Nat) : ∃ b, (0x80 + n % 64).toUInt8 = b ∧ isContinuation b = true ∧ payload b = n % 64 ∧
    b.toNat = 0x80 + n % 64 := by
  have value : (0x80 + n % 64).toUInt8.toNat = 0x80 + n % 64 := toNat_toUInt8 (by omega)
  generalize (0x80 + n % 64).toUInt8 = b at value
  refine ⟨b, rfl, ?_, ?_, value⟩
  · simp only [isContinuation, Bool.and_eq_true, decide_eq_true_eq, UInt8.le_iff_toNat_le, value]
    simp
    omega
  · rw [payload, value]
    omega

theorem secondAllowed_of {a b : UInt8} (middle : 0x80 ≤ b.toNat ∧ b.toNat ≤ 0xbf) (e0 : a.toNat = 0xe0 → 0xa0 ≤ b.toNat)
    (ed : a.toNat = 0xed → b.toNat ≤ 0x9f) (f0 : a.toNat = 0xf0 → 0x90 ≤ b.toNat) (f4 : a.toNat = 0xf4 → b.toNat ≤ 0x8f) :
    secondAllowed a b = true := by
  simp only [secondAllowed, isContinuation, ← UInt8.toNat_inj, UInt8.le_iff_toNat_le]
  simp
  grind

theorem decodeAfter_encodeCode (code : Nat) (valid : code.isValidChar) :
    ∃ a more, encodeCode code = a :: more ∧ ∀ tail, decodeAfter a (more ++ tail) = (.scalar code, more.length) := by
  have valid : code < 0xd800 ∨ 0xdfff < code ∧ code < 0x110000 := valid
  unfold encodeCode
  by_cases one : code < 0x80
  · refine ⟨code.toUInt8, [], if_pos one, fun tail => ?_⟩
    have value := toNat_toUInt8 (n := code) (by omega)
    have small : code.toUInt8 < 0x80 := by
      rw [UInt8.lt_iff_toNat_lt, value]
      exact one
    rw [decodeAfter.eq_def, if_pos small, value]
    rfl
  rw [if_neg one]
  by_cases two : code < 0x800
  · refine ⟨_, _, if_pos two, fun tail => ?_⟩
    have value : (0xc0 + code / 64).toUInt8.toNat = 0xc0 + code / 64 := toNat_toUInt8 (by omega)
    obtain ⟨b, same, continues, bits, -⟩ := continuation_read code
    rw [same, List.singleton_append, decodeAfter_two (by omega) continues, value, bits]
    congr 2
    omega
  have proper : ¬ ((0xd800 ≤ code && code ≤ 0xdfff || 0x110000 ≤ code) = true) := by
    simp only [Bool.or_eq_true, Bool.and_eq_true, decide_eq_true_eq]
    omega
  rw [if_neg two, if_neg proper]
  obtain ⟨c, third, continues, bits, -⟩ := continuation_read code
  obtain ⟨b, second, continues', bits', place⟩ := continuation_read (code / 64)
  by_cases three : code < 0x10000
  · refine ⟨_, _, if_pos three, fun tail => ?_⟩
    have value : (0xe0 + code / 4096).toUInt8.toNat = 0xe0 + code / 4096 := toNat_toUInt8 (by omega)
    have allowed : secondAllowed (0xe0 + code / 4096).toUInt8 b = true := by
      refine secondAllowed_of ?_ ?_ ?_ ?_ ?_ <;> rw [place] <;> omega
    rw [second, third, List.cons_append, List.singleton_append, decodeAfter_three (by omega) allowed continues, value, bits,
      bits']
    congr 2
    omega
  · refine ⟨_, _, if_neg three, fun tail => ?_⟩
    obtain ⟨a, first, -, bits'', place'⟩ := continuation_read (code / 4096)
    have value : (0xf0 + code / 262144).toUInt8.toNat = 0xf0 + code / 262144 := toNat_toUInt8 (by omega)
    have allowed : secondAllowed (0xf0 + code / 262144).toUInt8 a = true := by
      refine secondAllowed_of ?_ ?_ ?_ ?_ ?_ <;> rw [place'] <;> omega
    rw [first, second, third, List.cons_append, List.cons_append, List.singleton_append,
      decodeAfter_four (by omega) allowed continues' continues, value, bits, bits', bits'']
    congr 2
    omega

theorem utf8_ofList (chars : List Char) : utf8 (String.ofList chars) = chars.flatMap String.utf8EncodeChar := by
  rw [utf8, String.toByteArray_ofList, List.utf8Encode]
  simp

theorem isWellFormed_utf8 (s : String) : isWellFormed (utf8 s) = true := by
  rw [← String.ofList_toList (s := s), utf8_ofList]
  induction s.toList with
  | nil => simp [isWellFormed, decode]
  | cons c chars ih =>
    obtain ⟨a, more, whole, read⟩ := decodeAfter_encodeCode c.toNat c.valid
    rw [List.flatMap_cons, ← encodeCode_char, whole, List.cons_append, isWellFormed_cons, read, List.drop_left]
    exact ih

theorem characters_of_wellFormed (text : Bytes) (good : isWellFormed text = true) :
    ∃ chars : List Char, text = chars.flatMap String.utf8EncodeChar := by
  match text with
  | [] => exact ⟨[], rfl⟩
  | a :: rest =>
    rw [isWellFormed_cons] at good
    generalize read : decodeAfter a rest = found at good
    obtain ⟨rune, more⟩ := found
    cases rune with
    | stray b => cases good
    | scalar code =>
      obtain ⟨chars, later⟩ := characters_of_wellFormed (rest.drop more) good
      have value : (Char.ofNat code).toNat = code := by rw [Char.toNat_ofNat, if_pos (decodeAfter_valid read)]
      refine ⟨Char.ofNat code :: chars, ?_⟩
      rw [List.flatMap_cons, ← encodeCode_char, ← later, value, (decodeAfter_encode read).1, List.cons_append,
        List.take_append_drop]
termination_by text.length
decreasing_by simp only [List.length_drop, List.length_cons]; omega

theorem isWellFormed_iff (text : Bytes) : isWellFormed text = true ↔ ∃ s : String, utf8 s = text := by
  constructor
  · intro good
    obtain ⟨chars, rfl⟩ := characters_of_wellFormed text good
    exact ⟨String.ofList chars, utf8_ofList chars⟩
  · rintro ⟨s, rfl⟩
    exact isWellFormed_utf8 s

end Text

namespace Printer
open Lexer Text

def IsVerbatim (b : UInt8) : Prop := 0x20 ≤ b ∧ b ≠ 0x7f ∧ b ≠ 0x22 ∧ b ≠ 0x5c

instance : DecidablePred IsVerbatim := fun _ => inferInstanceAs (Decidable (_ ∧ _))

theorem stringByte_verbatim : ∀ b : UInt8, stringByte b = [b] ↔ IsVerbatim b := forall_byte (by decide +kernel)

theorem escaped_eq_iff (text : Bytes) : escaped text = text ↔ ∀ b ∈ text, IsVerbatim b := by
  induction text with
  | nil => simp [escaped]
  | cons b rest ih =>
    rw [escaped_cons, List.forall_mem_cons, ← ih, ← stringByte_verbatim]
    constructor
    · intro same
      have written := stringByte_written b
      generalize stringByte b = word at written same
      cases written with
      | plain => exact ⟨rfl, (List.cons.inj same).2⟩
      | letter =>
        have lengths := congrArg List.length same
        have kept := length_escaped rest
        simp only [List.length_append, List.length_cons, List.length_nil] at lengths
        omega
      | hex =>
        have lengths := congrArg List.length same
        have kept := length_escaped rest
        simp only [List.length_append, List.length_cons, List.length_nil] at lengths
        omega
    · rintro ⟨plain, later⟩
      rw [plain, later]
      rfl

def hexEscapes (text : Bytes) : Bytes := text.flatMap fun b => utf8 "\\x" ++ Bytes.hexPadded 2 b.toNat

def hexString (text : Bytes) : Bytes := 0x22 :: (hexEscapes text ++ [0x22])

theorem hexEscapes_cons (b : UInt8) (rest : Bytes) :
    hexEscapes (b :: rest) = 0x5c :: 0x78 :: (hexDigits b).1 :: (hexDigits b).2 :: hexEscapes rest := by
  rw [hexEscapes, List.flatMap_cons, hexPadded_byte]
  rfl

theorem isQuoted_hexString (text : Bytes) : IsQuoted 0x22 (hexString text) := by
  refine ⟨hexEscapes text ++ [0x22], rfl, ?_⟩
  induction text with
  | nil => rfl
  | cons b rest ih =>
    rw [hexEscapes_cons]
    simp only [List.cons_append]
    rw [quotedLength_hex b (by simp), ih]
    rfl

theorem hexEscapes_lines (text : Bytes) : ∀ b ∈ hexEscapes text, b ≠ 0x0a := by
  intro c member
  induction text with
  | nil => cases member
  | cons b rest ih =>
    obtain ⟨first, second⟩ := hexDigits_hex b
    rw [hexEscapes_cons] at member
    simp only [List.mem_cons] at member
    rcases member with rfl | rfl | rfl | rfl | later
    · decide
    · decide
    · exact (hexDigit_plain _ first).2.2
    · exact (hexDigit_plain _ second).2.2
    · exact ih later

theorem unescape_hexEscapes (text : Bytes) : unescape (hexEscapes text) = some text := by
  induction text with
  | nil => simp [hexEscapes, unescape]
  | cons b rest ih =>
    rw [hexEscapes_cons, unescape_hex, ih]
    rfl

theorem literal_hexString (text : Bytes) : Parser.literal (hexString text) = (text, true) := by
  rw [hexString, literal_quoted (hexEscapes_lines text), unescape_hexEscapes]
  cases text with
  | nil => rfl
  | cons b rest =>
    rw [hexEscapes_cons, if_pos List.mem_cons_self]
    rfl

end Printer

theorem tokens_word {kind : TokenKind} {word : Bytes} (reads : Lexer.Reads true kind [] word) (more : kind ≠ .eof) :
    tokens word = [⟨kind, word, .first⟩, ⟨.eof, [], Position.first.after word⟩] := by
  have facing : (Cursor.ofSource word).Facing true (word ++ []) := (List.append_nil word).symm ▸ Cursor.facing_start word
  obtain ⟨same, lexeme, left⟩ := facing.read reads
  have last := left.facing_word.eof
  obtain ⟨gap, whole, start, stop⟩ := (Cursor.ofSource word).next_whole
  obtain ⟨gap', whole', start', -⟩ := (Cursor.ofSource word).next.2.next_whole
  -- Nothing stands in front of the word, and nothing behind it.
  have none : gap = [] := by
    have lengths : word.length = _ := congrArg List.length whole
    rw [lexeme, left.1, List.append_nil, List.length_append] at lengths
    exact List.length_eq_zero_iff.mp (by omega)
  have empty : gap' = [] ∧ (Cursor.ofSource word).next.2.next.1.lexeme = [] := by
    rw [left.1] at whole'
    exact List.append_eq_nil_iff.mp (List.append_eq_nil_iff.mp whole'.symm).1
  rw [none] at start
  rw [empty.1, stop] at start'
  have length : ∃ n, word.length = n + 1 := by
    cases reads
    exact ⟨_, rfl⟩
  obtain ⟨n, length⟩ := length
  have token : (Cursor.ofSource word).next.1 = ⟨kind, word, .first⟩ := by
    generalize (Cursor.ofSource word).next.1 = t at same lexeme start
    cases t
    cases same
    cases lexeme
    cases start
    rfl
  have final : (Cursor.ofSource word).next.2.next.1 = ⟨.eof, [], Position.first.after word⟩ := by
    rw [token] at start'
    generalize (Cursor.ofSource word).next.2.next.1 = t at last empty start'
    cases t
    cases last
    cases empty.2
    cases start'
    rfl
  rw [tokens, length]
  simp only [Lexer.tokens, token, final, more, if_false, if_true]

def stringSource (word : Bytes) : Bytes := utf8 "/ \x7b p = " ++ (word ++ utf8 "; \x7d;")

structure StringRead (word text : Bytes) : Prop where
  silent : (Document.parse (stringSource word)).errors = []
  string : ∃ root p range, (Document.parse (stringSource word)).items = [.node root] ∧
    root.head.heading = .name (utf8 "/") ∧ root.body = [.property p] ∧ p.name = utf8 "p" ∧ p.values = [.string range text]

namespace Parser
open Lexer

theorem property_literal (name : Token) {s : State} {word text tail : Bytes} (quoted : IsQuoted 0x22 word)
    (means : literal word = (text, true)) (stands : s.cursor.At ([0x20] ++ (word ++ ([0x3b] ++ tail)))) :
    (∃ range, (property [] name s).1.values = [.string range text]) ∧ (property [] name s).2.errors = s.errors ∧
      (property [] name s).2.cursor.At tail := by
  have reads : Reads false .string ([0x3b] ++ tail) word :=
    .of_quoted quoted false (fun _ => rfl) rfl (by decide) (by decide)
  obtain ⟨kind, lexeme, after⟩ := State.read (stands.facing (by decide)) reads
  obtain ⟨mark, -, done⟩ := State.read after.facing_word (reads_mark .semicolon rfl false _)
  have first : value s = (some (.string s.peek.range text), s.take) := by
    rw [value]
    simp only [kind, text_eq kind (by decide), lexeme, means, if_true]
  have only := values_last first (by rw [mark]; decide) s.cursor.rest.length name.stop
  have step : property [] name s = (propertyDecl [] name s.take.peek.stop [.string s.peek.range text], s.take.take) := by
    rw [property_eq, State.rounds, only, ended]
    simp only [mark, if_true]
  rw [step]
  exact ⟨⟨_, rfl⟩, rfl, done⟩

theorem stringRead_quoted {word text : Bytes} (quoted : IsQuoted 0x22 word) (means : literal word = (text, true)) :
    StringRead word text := by
  have read := parse_property ([0x20] ++ (word ++ [0x3b])) (fun p => ∃ range, p.values = [.string range text])
    fun name s stands => by
      have parts : [0x20] ++ (word ++ [0x3b]) ++ utf8 " \x7d;" = [0x20] ++ (word ++ ([0x3b] ++ utf8 " \x7d;")) := by
        simp only [List.append_assoc]
      rw [parts] at stands
      exact property_literal name quoted means stands
  have whole : stringSource word = utf8 "/ \x7b p =" ++ ([0x20] ++ (word ++ [0x3b]) ++ utf8 " \x7d;") := by
    simp only [List.append_assoc]
    rfl
  rw [← whole] at read
  obtain ⟨silent, root, p, items, heading, body, named, range, values⟩ := read
  exact ⟨silent, root, p, range, items, heading, body, named, values⟩

end Parser

-- Every byte string is read as the value of a property. Its literal is one token with good escapes, which means the string
-- again just if all bytes are written as they stand or the string is UTF-8.
theorem Printer.string_returns_iff (text : Bytes) :
    (∃ word, StringRead word text) ∧
    tokens (string text) = [⟨.string, string text, .first⟩, ⟨.eof, [], Position.first.after (string text)⟩] ∧
    (Parser.literal (string text)).2 = true ∧
    (Parser.literal (string text) = (text, true) ↔
      (∀ b ∈ text, IsVerbatim b) ∨ ∃ characters : String, utf8 characters = text) := by
  refine ⟨⟨hexString text, Parser.stringRead_quoted (isQuoted_hexString text) (literal_hexString text)⟩,
    tokens_word (.of_string text true []) (by decide), ?_, ?_⟩
  · rw [literal_string]
  · rw [literal_string, Prod.mk.injEq, and_iff_left rfl, reread_eq_iff, Legible, escaped_eq_iff, Text.isWellFormed_iff]

-- A line end, which is escaped, in front of a byte that begins no character.
theorem Printer.mixed_not_returned : StringRead (utf8 "\"\\n\\xff\"") [0x0a, 0xff] ∧
    string [0x0a, 0xff] = [0x22, 0x5c, 0x6e, 0xff, 0x22] ∧
    Parser.literal (string [0x0a, 0xff]) = (utf8 "\n\ufffd", true) ∧
    Parser.literal (string [0x0a, 0xff]) ≠ ([0x0a, 0xff], true) := by
  have quoted : Lexer.IsQuoted 0x22 (utf8 "\"\\n\\xff\"") := ⟨utf8 "\\n\\xff\"", by decide, by decide⟩
  have means : Parser.literal (utf8 "\"\\n\\xff\"") = ([0x0a, 0xff], true) := by cbv
  have changed : Parser.literal (string [0x0a, 0xff]) = (utf8 "\n\ufffd", true) := by cbv
  refine ⟨Parser.stringRead_quoted quoted means, by decide, changed, ?_⟩
  rw [changed]
  decide

end DeviceTree
