import DeviceTree.Proofs.Numerals
import DeviceTree.Tree.Printer

namespace DeviceTree.Text

theorem decodeAfter_scalar {a : UInt8} {rest : Bytes} {code more : Nat} (read : decodeAfter a rest = (.scalar code, more)) :
    (a < 0x80 ∧ code = a.toNat ∧ more = 0) ∨
    (∃ b tail, rest = b :: tail ∧ (0xc2 ≤ a ∧ a ≤ 0xdf) ∧ isContinuation b = true ∧
      code = a.toNat % 32 * 64 + payload b ∧ more = 1) ∨
    (∃ b c tail, rest = b :: c :: tail ∧ (0xe0 ≤ a ∧ a ≤ 0xef) ∧ secondAllowed a b = true ∧ isContinuation c = true ∧
      code = a.toNat % 16 * 4096 + payload b * 64 + payload c ∧ more = 2) ∨
    ∃ b c d tail, rest = b :: c :: d :: tail ∧ (0xf0 ≤ a ∧ a ≤ 0xf4) ∧ secondAllowed a b = true ∧
      isContinuation c = true ∧ isContinuation d = true ∧
      code = a.toNat % 8 * 262144 + payload b * 4096 + payload c * 64 + payload d ∧ more = 3 := by
  rw [decodeAfter.eq_def] at read
  split at read
  · rename_i small
    cases read
    exact .inl ⟨small, rfl, rfl⟩
  · split at read
    · cases read
    · rename_i b tail
      split at read
      · rename_i two
        split at read
        · rename_i continues
          cases read
          exact .inr (.inl ⟨b, tail, rfl, by simpa using two, continues, rfl, rfl⟩)
        · cases read
      · split at read
        · cases read
        · rename_i c tail
          split at read
          · rename_i three
            split at read
            · rename_i continues
              cases read
              rw [Bool.and_eq_true] at continues
              exact .inr (.inr (.inl ⟨b, c, tail, rfl, by simpa using three, continues.1, continues.2, rfl, rfl⟩))
            · cases read
          · split at read
            · cases read
            · rename_i d tail
              split at read
              · rename_i four
                cases read
                simp only [Bool.and_eq_true, decide_eq_true_eq] at four
                obtain ⟨⟨⟨⟨low, high⟩, second⟩, third⟩, fourth⟩ := four
                exact .inr (.inr (.inr ⟨b, c, d, tail, rfl, ⟨low, high⟩, second, third, fourth, rfl, rfl⟩))
              · cases read

theorem range_bounds {low high b : UInt8} (within : (decide (low ≤ b) && decide (b ≤ high)) = true) :
    low.toNat ≤ b.toNat ∧ b.toNat ≤ high.toNat := by
  simpa only [Bool.and_eq_true, decide_eq_true_eq, UInt8.le_iff_toNat_le] using within

theorem continuation_bounds {b : UInt8} (continues : isContinuation b = true) : 0x80 ≤ b.toNat ∧ b.toNat ≤ 0xbf :=
  range_bounds continues

-- A second byte continues the first, and keeps the code out of the shorter forms and the surrogates.
theorem second_bounds {a b : UInt8} (allowed : secondAllowed a b = true) :
    (0x80 ≤ b.toNat ∧ b.toNat ≤ 0xbf) ∧ (a.toNat = 0xe0 → 0xa0 ≤ b.toNat) ∧ (a.toNat = 0xed → b.toNat ≤ 0x9f) ∧
      (a.toNat = 0xf0 → 0x90 ≤ b.toNat) ∧ (a.toNat = 0xf4 → b.toNat ≤ 0x8f) := by
  have other : ∀ {n : UInt8}, ¬ a = n → a.toNat ≠ n.toNat := fun differ same => differ (UInt8.toNat_inj.mp same)
  unfold secondAllowed at allowed
  split at allowed
  · rename_i e0
    have first : a.toNat = 0xe0 := congrArg UInt8.toNat e0
    have bounds : 0xa0 ≤ b.toNat ∧ b.toNat ≤ 0xbf := range_bounds allowed
    omega
  · split at allowed
    · rename_i ed
      have first : a.toNat = 0xed := congrArg UInt8.toNat ed
      have bounds : 0x80 ≤ b.toNat ∧ b.toNat ≤ 0x9f := range_bounds allowed
      omega
    · split at allowed
      · rename_i f0
        have first : a.toNat = 0xf0 := congrArg UInt8.toNat f0
        have bounds : 0x90 ≤ b.toNat ∧ b.toNat ≤ 0xbf := range_bounds allowed
        omega
      · split at allowed
        · rename_i f4
          have first : a.toNat = 0xf4 := congrArg UInt8.toNat f4
          have bounds : 0x80 ≤ b.toNat ∧ b.toNat ≤ 0x8f := range_bounds allowed
          omega
        · rename_i e0 ed f0 f4
          exact ⟨continuation_bounds allowed, fun first => absurd first (other e0), fun first => absurd first (other ed),
            fun first => absurd first (other f0), fun first => absurd first (other f4)⟩

theorem toUInt8_eq {b : UInt8} {n : Nat} (same : n = b.toNat) : n.toUInt8 = b := by
  rw [same]
  exact UInt8.ofNat_toNat

theorem encode_two {a b : UInt8} (first : 0xc2 ≤ a ∧ a ≤ 0xdf) (second : isContinuation b = true) :
    encodeCode (a.toNat % 32 * 64 + payload b) = [a, b] := by
  have low := continuation_bounds second
  simp only [UInt8.le_iff_toNat_le] at first
  have bounds : 0xc2 ≤ a.toNat ∧ a.toNat ≤ 0xdf := first
  have rest : payload b = b.toNat - 0x80 := by
    unfold payload
    omega
  rw [encodeCode, if_neg (by omega), if_pos (by omega)]
  congr 1
  · exact toUInt8_eq (by omega)
  · congr 1
    exact toUInt8_eq (by omega)

theorem encode_three {a b c : UInt8} (first : 0xe0 ≤ a ∧ a ≤ 0xef) (second : secondAllowed a b = true)
    (third : isContinuation c = true) : encodeCode (a.toNat % 16 * 4096 + payload b * 64 + payload c) = [a, b, c] := by
  obtain ⟨middle, short, surrogate, -, -⟩ := second_bounds second
  have low := continuation_bounds third
  simp only [UInt8.le_iff_toNat_le] at first
  have bounds : 0xe0 ≤ a.toNat ∧ a.toNat ≤ 0xef := first
  have payloads : payload b = b.toNat - 0x80 ∧ payload c = c.toNat - 0x80 := by
    unfold payload
    omega
  rw [encodeCode, if_neg (by omega), if_neg (by omega), if_neg, if_pos (by omega)]
  · congr 1
    · exact toUInt8_eq (by omega)
    · congr 1
      · exact toUInt8_eq (by omega)
      · congr 1
        exact toUInt8_eq (by omega)
  · simp only [Bool.or_eq_true, Bool.and_eq_true, decide_eq_true_eq]
    omega

theorem encode_four {a b c d : UInt8} (first : 0xf0 ≤ a ∧ a ≤ 0xf4) (second : secondAllowed a b = true)
    (third : isContinuation c = true) (fourth : isContinuation d = true) :
    encodeCode (a.toNat % 8 * 262144 + payload b * 4096 + payload c * 64 + payload d) = [a, b, c, d] := by
  obtain ⟨middle, -, -, short, large⟩ := second_bounds second
  have low := continuation_bounds third
  have lower := continuation_bounds fourth
  simp only [UInt8.le_iff_toNat_le] at first
  have bounds : 0xf0 ≤ a.toNat ∧ a.toNat ≤ 0xf4 := first
  have payloads : payload b = b.toNat - 0x80 ∧ payload c = c.toNat - 0x80 ∧ payload d = d.toNat - 0x80 := by
    unfold payload
    omega
  rw [encodeCode, if_neg (by omega), if_neg (by omega), if_neg, if_neg (by omega)]
  · congr 1
    · exact toUInt8_eq (by omega)
    · congr 1
      · exact toUInt8_eq (by omega)
      · congr 1
        · exact toUInt8_eq (by omega)
        · congr 1
          exact toUInt8_eq (by omega)
  · simp only [Bool.or_eq_true, Bool.and_eq_true, decide_eq_true_eq]
    omega

theorem decodeAfter_encode {a : UInt8} {rest : Bytes} {code more : Nat} (read : decodeAfter a rest = (.scalar code, more)) :
    encodeCode code = a :: rest.take more ∧
      (∀ tail, decodeAfter a (rest.take more ++ tail) = (.scalar code, more)) ∧
      (a < 0x80 ∧ more = 0 ∨ ¬ a < 0x80 ∧ ∀ b ∈ rest.take more, ¬ b < 0x80) := by
  have large : ∀ b : UInt8, isContinuation b = true → ¬ b < 0x80 := by
    intro b continues small
    have bounds := continuation_bounds continues
    have below : b.toNat < 0x80 := UInt8.lt_iff_toNat_lt.mp small
    omega
  have second : ∀ a b : UInt8, secondAllowed a b = true → ¬ b < 0x80 := by
    intro a b allowed small
    have bounds := (second_bounds allowed).1
    have below : b.toNat < 0x80 := UInt8.lt_iff_toNat_lt.mp small
    omega
  have high : ∀ n : UInt8, 0x80 ≤ n → n ≤ a → ¬ a < 0x80 := by
    intro n above larger small
    simp only [UInt8.le_iff_toNat_le, UInt8.lt_iff_toNat_lt] at above larger small
    omega
  rcases decodeAfter_scalar read with ⟨small, rfl, rfl⟩ | ⟨b, tail, rfl, first, continues, rfl, rfl⟩ |
      ⟨b, c, tail, rfl, first, allowed, continues, rfl, rfl⟩ |
      ⟨b, c, d, tail, rfl, first, allowed, continues, continues', rfl, rfl⟩
  · refine ⟨?_, fun tail => ?_, .inl ⟨small, rfl⟩⟩
    · have below : a.toNat < 0x80 := UInt8.lt_iff_toNat_lt.mp small
      rw [encodeCode, if_pos below, List.take_zero]
      exact congrArg (fun x => [x]) (toUInt8_eq rfl)
    · rw [decodeAfter.eq_def, if_pos small]
  · have big := high _ (by decide) first.1
    refine ⟨encode_two first continues, fun more => ?_, .inr ⟨big, ?_⟩⟩
    · simp [decodeAfter.eq_def, big, first, continues]
    · simpa using large b continues
  · have big := high _ (by decide) first.1
    have apart : ¬ (0xc2 ≤ a ∧ a ≤ 0xdf) := by
      simp only [UInt8.le_iff_toNat_le] at first ⊢
      simp at first ⊢
      omega
    refine ⟨encode_three first allowed continues, fun more => ?_, .inr ⟨big, ?_⟩⟩
    · simp [decodeAfter.eq_def, big, apart, first, allowed, continues]
    · have both : ¬ b < 0x80 ∧ ¬ c < 0x80 := ⟨second a b allowed, large c continues⟩
      simpa using both
  · have big := high _ (by decide) first.1
    have apart : ¬ (0xc2 ≤ a ∧ a ≤ 0xdf) ∧ ¬ (0xe0 ≤ a ∧ a ≤ 0xef) := by
      simp only [UInt8.le_iff_toNat_le] at first ⊢
      simp at first ⊢
      omega
    refine ⟨encode_four first allowed continues continues', fun more => ?_, .inr ⟨big, ?_⟩⟩
    · simp [decodeAfter.eq_def, big, apart, first, allowed, continues, continues']
    · have all : ¬ b < 0x80 ∧ ¬ c < 0x80 ∧ ¬ d < 0x80 := ⟨second a b allowed, large c continues, large d continues'⟩
      simpa using all

theorem decodeAfter_stray {a b : UInt8} {rest : Bytes} {more : Nat} (read : decodeAfter a rest = (.stray b, more)) :
    b = a ∧ more = 0 ∧ ¬ a < 0x80 := by
  rw [decodeAfter.eq_def] at read
  split at read
  · cases read
  · rename_i large
    have found : (Rune.stray b, more) = (.stray a, 0) := by
      rw [← read]
      grind
    cases found
    exact ⟨rfl, rfl, large⟩

def repaired (text : Bytes) : Bytes := (decode text).flatMap fun r => encodeCode r.code

theorem repaired_cons (a : UInt8) (rest : Bytes) :
    repaired (a :: rest) = encodeCode (decodeAfter a rest).1.code ++ repaired (rest.drop (decodeAfter a rest).2) := by
  rw [repaired, decode, List.flatMap_cons, ← repaired]

theorem isWellFormed_cons (a : UInt8) (rest : Bytes) :
    isWellFormed (a :: rest) = (!(decodeAfter a rest).1.isStray && isWellFormed (rest.drop (decodeAfter a rest).2)) := by
  rw [isWellFormed, decode, List.all_cons, ← isWellFormed]

-- A stray byte becomes three, so a text that is left as it is has none.
theorem repaired_cases (text : Bytes) :
    isWellFormed text = true ∧ repaired text = text ∨ isWellFormed text = false ∧ text.length < (repaired text).length := by
  match text with
  | [] => exact .inl ⟨by simp [isWellFormed, decode], by simp [repaired, decode]⟩
  | a :: rest =>
    rw [repaired_cons, isWellFormed_cons]
    generalize read : decodeAfter a rest = found
    obtain ⟨rune, more⟩ := found
    have ih := repaired_cases (rest.drop more)
    have lengths : (rest.take more).length + (rest.drop more).length = rest.length := by
      rw [← List.length_append, List.take_append_drop]
    cases rune with
    | scalar code =>
      have encoded := (decodeAfter_encode read).1
      simp only [Rune.code, encoded, Rune.isStray, Bool.not_false, Bool.true_and]
      rcases ih with ⟨good, same⟩ | ⟨bad, longer⟩
      · exact .inl ⟨good, by rw [same, List.cons_append, List.take_append_drop]⟩
      · refine .inr ⟨bad, ?_⟩
        simp only [List.length_append, List.length_cons]
        omega
    | stray b =>
      obtain ⟨rfl, rfl, -⟩ := decodeAfter_stray read
      refine .inr ⟨rfl, ?_⟩
      have three : (encodeCode (Rune.stray b).code).length = 3 := rfl
      have kept : rest.length ≤ (repaired rest).length := by
        rcases ih with ⟨-, same⟩ | ⟨-, longer⟩
        · rw [List.drop_zero] at same
          rw [same]
        · exact Nat.le_of_lt longer
      simp only [List.length_append, List.length_cons, three, List.drop_zero]
      omega
termination_by text.length
decreasing_by simp only [List.length_drop, List.length_cons]; omega

theorem repaired_eq_iff (text : Bytes) : repaired text = text ↔ isWellFormed text = true := by
  rcases repaired_cases text with ⟨good, same⟩ | ⟨bad, longer⟩
  · simp [good, same]
  · simp only [bad, Bool.false_eq_true, iff_false]
    intro same
    rw [same] at longer
    exact Nat.lt_irrefl _ longer

end DeviceTree.Text

namespace DeviceTree.Printer
open Text

def hexDigits (b : UInt8) : UInt8 × UInt8 := ((Nat.digitChar (b.toNat / 16)).toUInt8, (Nat.digitChar (b.toNat % 16)).toUInt8)

theorem hexPadded_byte : ∀ b : UInt8, Bytes.hexPadded 2 b.toNat = [(hexDigits b).1, (hexDigits b).2] :=
  forall_byte (by decide +kernel)

theorem readDigits_byte : ∀ b : UInt8, Bytes.readDigits 16 [(hexDigits b).1, (hexDigits b).2] = some b.toNat :=
  forall_byte (by decide +kernel)

theorem hexDigits_hex : ∀ b : UInt8, Bytes.isHexDigit (hexDigits b).1 = true ∧ Bytes.isHexDigit (hexDigits b).2 = true :=
  forall_byte (by decide +kernel)

inductive Written (b : UInt8) : Bytes → Prop where
  | plain (backslash : b ≠ 0x5c) (quote : b ≠ 0x22) (line : b ≠ 0x0a) : Written b [b]
  | letter {letter : UInt8} (small : b < 0x80) (line : letter ≠ 0x0a) (means : ∀ rest, escape letter rest = some ([b], 0)) :
      Written b [0x5c, letter]
  | hex (small : b < 0x80) : Written b [0x5c, 0x78, (hexDigits b).1, (hexDigits b).2]

theorem stringByte_written (b : UInt8) : Written b (stringByte b) := by
  have letter : ∀ (c : Char) (l : UInt8), Char.ofUInt8 b = c → c.toUInt8 < 0x80 → l ≠ 0x0a →
      (∀ rest, escape l rest = some ([c.toUInt8], 0)) → Written b [0x5c, l] := by
    intro c l same small line means
    rw [byte_of_char same]
    exact .letter small line means
  unfold stringByte
  split
  · rename_i same
    exact letter _ _ same (by decide) (by decide) fun _ => rfl
  · rename_i same
    exact letter _ _ same (by decide) (by decide) fun _ => rfl
  · rename_i same
    exact letter _ _ same (by decide) (by decide) fun _ => rfl
  · rename_i same
    exact letter _ _ same (by decide) (by decide) fun _ => rfl
  · rename_i same
    exact letter _ _ same (by decide) (by decide) fun _ => rfl
  · rename_i quote backslash line _ _
    split
    · rename_i control
      rw [hexPadded_byte b]
      have small : b < 0x80 := by
        simp only [Bool.or_eq_true, decide_eq_true_eq] at control
        rcases control with below | rfl
        · exact UInt8.lt_trans below (by decide)
        · decide
      exact .hex small
    · refine .plain ?_ ?_ ?_
      · rintro rfl
        exact backslash rfl
      · rintro rfl
        exact quote rfl
      · rintro rfl
        exact line rfl

def escaped (text : Bytes) : Bytes := text.flatMap stringByte

theorem quotedLength_plain {quote b : UInt8} {rest : Bytes} (backslash : b ≠ 0x5c) (other : b ≠ quote) (line : b ≠ 0x0a)
    (more : rest ≠ []) : Lexer.quotedLength quote (b :: rest) =
      ((Lexer.quotedLength quote rest).1 + 1, (Lexer.quotedLength quote rest).2) := by
  cases rest with
  | nil => exact absurd rfl more
  | cons c rest => rw [Lexer.quotedLength]; simp [backslash, other, line]

theorem quotedLength_escape (quote c : UInt8) (rest : Bytes) : Lexer.quotedLength quote (0x5c :: c :: rest) =
    ((Lexer.quotedLength quote rest).1 + 2, (Lexer.quotedLength quote rest).2) := by
  rw [Lexer.quotedLength]
  simp

theorem hexDigit_plain : ∀ b : UInt8, Bytes.isHexDigit b = true → b ≠ 0x5c ∧ b ≠ 0x22 ∧ b ≠ 0x0a :=
  forall_byte (by decide +kernel)

theorem quotedLength_hex (b : UInt8) {rest : Bytes} (more : rest ≠ []) :
    Lexer.quotedLength 0x22 (0x5c :: 0x78 :: (hexDigits b).1 :: (hexDigits b).2 :: rest) =
      ((Lexer.quotedLength 0x22 rest).1 + 4, (Lexer.quotedLength 0x22 rest).2) := by
  obtain ⟨first, second⟩ := hexDigits_hex b
  obtain ⟨backslash, quote, line⟩ := hexDigit_plain _ first
  obtain ⟨backslash', quote', line'⟩ := hexDigit_plain _ second
  rw [quotedLength_escape, quotedLength_plain backslash quote line (by simp),
    quotedLength_plain backslash' quote' line' more]

theorem quotedLength_written {b : UInt8} {word rest : Bytes} (written : Written b word) (more : rest ≠ []) :
    Lexer.quotedLength 0x22 (word ++ rest) =
      ((Lexer.quotedLength 0x22 rest).1 + word.length, (Lexer.quotedLength 0x22 rest).2) := by
  cases written with
  | plain backslash quote line => exact quotedLength_plain backslash quote line more
  | letter => exact quotedLength_escape _ _ _
  | hex => exact quotedLength_hex b more

theorem quotedLength_escaped (text tail : Bytes) :
    Lexer.quotedLength 0x22 (escaped text ++ 0x22 :: tail) = ((escaped text).length + 1, true) := by
  induction text with
  | nil => cases tail <;> simp [escaped, Lexer.quotedLength]
  | cons b rest ih =>
    have split : escaped (b :: rest) ++ 0x22 :: tail = stringByte b ++ (escaped rest ++ 0x22 :: tail) := by
      simp [escaped]
    have length : (escaped (b :: rest)).length = (stringByte b).length + (escaped rest).length := by
      simp [escaped]
    rw [split, quotedLength_written (stringByte_written b) (by simp), ih, length]
    simp only [Prod.mk.injEq, and_true]
    omega

theorem unescape_letter {b letter : UInt8} (means : ∀ rest, escape letter rest = some ([b], 0)) (rest : Bytes) :
    unescape (0x5c :: letter :: rest) = (unescape rest).map (b :: ·) := by
  rw [unescape]
  simp [means]

theorem unescape_hex (b : UInt8) (rest : Bytes) :
    unescape (0x5c :: 0x78 :: (hexDigits b).1 :: (hexDigits b).2 :: rest) = (unescape rest).map (b :: ·) := by
  have digits : takeDigits 16 2 ((hexDigits b).1 :: (hexDigits b).2 :: rest) = some b.toNat := by
    simp [takeDigits, readDigits_byte]
  have means : escape 0x78 ((hexDigits b).1 :: (hexDigits b).2 :: rest) = some ([b], 2) := by
    have read : escape 0x78 ((hexDigits b).1 :: (hexDigits b).2 :: rest) =
        (takeDigits 16 2 ((hexDigits b).1 :: (hexDigits b).2 :: rest)).map fun v => ([v.toUInt8], 2) := rfl
    rw [read, digits, Option.map_some, Text.toUInt8_eq rfl]
  rw [unescape]
  simp [means]

theorem stringByte_large {b : UInt8} (large : ¬ b < 0x80) : stringByte b = [b] := by
  generalize equal : stringByte b = word
  have written := equal ▸ stringByte_written b
  cases written with
  | plain => rfl
  | letter small => exact absurd small large
  | hex small => exact absurd small large

theorem escaped_large {text : Bytes} (large : ∀ b ∈ text, ¬ b < 0x80) : escaped text = text := by
  induction text with
  | nil => rfl
  | cons b rest ih =>
    rw [escaped, List.flatMap_cons, stringByte_large (large b List.mem_cons_self), ← escaped,
      ih fun c member => large c (List.mem_cons_of_mem _ member)]
    rfl

theorem escaped_cons (a : UInt8) (rest : Bytes) : escaped (a :: rest) = stringByte a ++ escaped rest := by
  rw [escaped, List.flatMap_cons, ← escaped]

theorem escaped_append (text rest : Bytes) : escaped (text ++ rest) = escaped text ++ escaped rest := by
  rw [escaped, List.flatMap_append, ← escaped, ← escaped]

-- Large bytes at the front of what is written are those of the text itself.
theorem take_escaped (n : Nat) {text : Bytes} (large : ∀ b ∈ (escaped text).take n, ¬ b < 0x80) :
    (escaped text).take n = text.take n := by
  induction text generalizing n with
  | nil => rfl
  | cons a rest ih =>
    cases n with
    | zero => rfl
    | succ n =>
      rw [escaped_cons] at large ⊢
      have written := stringByte_written a
      generalize stringByte a = word at written large
      cases written with
      | plain =>
        simp only [List.cons_append, List.nil_append, List.take_succ_cons] at large ⊢
        rw [ih n fun b member => large b (List.mem_cons_of_mem _ member)]
      | letter => exact absurd (by decide) (large 0x5c (by simp))
      | hex => exact absurd (by decide) (large 0x5c (by simp))

theorem decodeAfter_escaped (a : UInt8) (rest : Bytes) : decodeAfter a (escaped rest) = decodeAfter a rest := by
  by_cases small : a < 0x80
  · rw [decodeAfter.eq_def, decodeAfter.eq_def, if_pos small, if_pos small]
  generalize read : decodeAfter a rest = found
  obtain ⟨rune, more⟩ := found
  cases rune with
  | scalar code =>
    obtain ⟨-, again, sizes⟩ := decodeAfter_encode read
    rcases sizes with ⟨below, -⟩ | ⟨-, large⟩
    · exact absurd below small
    · rw [← List.take_append_drop more rest, escaped_append, escaped_large large, again]
  | stray b =>
    obtain ⟨rfl, rfl, -⟩ := decodeAfter_stray read
    generalize reread : decodeAfter b (escaped rest) = found
    obtain ⟨rune, more⟩ := found
    cases rune with
    | stray c =>
      obtain ⟨rfl, rfl, -⟩ := decodeAfter_stray reread
      rfl
    | scalar code =>
      obtain ⟨-, again, sizes⟩ := decodeAfter_encode reread
      rcases sizes with ⟨below, -⟩ | ⟨-, large⟩
      · exact absurd below small
      · have same := again (rest.drop more)
        rw [take_escaped more large, List.take_append_drop, read] at same
        cases same

theorem drop_escaped {rest : Bytes} {more : Nat} (large : ∀ b ∈ rest.take more, ¬ b < 0x80) :
    (escaped rest).drop more = escaped (rest.drop more) := by
  have split : escaped rest = rest.take more ++ escaped (rest.drop more) := by
    rw [← escaped_large large, ← escaped_append, List.take_append_drop]
  rw [split]
  by_cases short : rest.length ≤ more
  · rw [List.drop_eq_nil_of_le short, List.take_of_length_le short]
    simp [escaped, short]
  · exact List.drop_left' (by rw [List.length_take]; omega)

theorem unescape_escaped (text : Bytes) : unescape (escaped text) = some (repaired text) := by
  match text with
  | [] => simp [escaped, unescape, repaired, decode]
  | a :: rest =>
    rw [repaired_cons, escaped_cons]
    have ih := unescape_escaped (rest.drop (decodeAfter a rest).2)
    -- The bytes after the first of a character are large, so none of them is escaped.
    have later : (escaped rest).drop (decodeAfter a rest).2 = escaped (rest.drop (decodeAfter a rest).2) := by
      generalize read : decodeAfter a rest = found
      obtain ⟨rune, more⟩ := found
      cases rune with
      | scalar code =>
        rcases (decodeAfter_encode read).2.2 with ⟨-, rfl⟩ | ⟨-, large⟩
        · rfl
        · exact drop_escaped large
      | stray b =>
        obtain ⟨-, rfl, -⟩ := decodeAfter_stray read
        rfl
    have small : a < 0x80 → unescape (escaped rest) = some (repaired rest) ∧
        encodeCode (decodeAfter a rest).1.code ++ repaired (rest.drop (decodeAfter a rest).2) = a :: repaired rest := by
      intro below
      have read : decodeAfter a rest = (.scalar a.toNat, 0) := by rw [decodeAfter.eq_def, if_pos below]
      rw [read] at ih ⊢
      exact ⟨ih, by rw [Rune.code, (decodeAfter_encode read).1]; rfl⟩
    have written := stringByte_written a
    generalize stringByte a = word at written
    cases written with
    | plain backslash quote line =>
      rw [List.singleton_append, unescape.eq_def]
      simp only [backslash, quote, line, if_false, decide_false, Bool.or_self, Bool.false_eq_true, decodeAfter_escaped,
        later, ih, Option.map_some]
    | letter below _ means =>
      obtain ⟨tail, whole⟩ := small below
      rw [whole, List.cons_append, List.singleton_append, unescape_letter means, tail]
      rfl
    | hex below =>
      obtain ⟨tail, whole⟩ := small below
      simp only [List.cons_append, List.nil_append]
      rw [whole, unescape_hex, tail]
      rfl
termination_by text.length
decreasing_by simp only [List.length_drop, List.length_cons]; omega

theorem escaped_lines (text : Bytes) : ∀ b ∈ escaped text, b ≠ 0x0a := by
  intro c member
  obtain ⟨b, -, inside⟩ := List.mem_flatMap.mp member
  have written := stringByte_written b
  generalize stringByte b = word at written inside
  cases written with
  | plain _ _ line =>
    cases List.mem_singleton.mp inside
    exact line
  | letter _ line =>
    simp only [List.mem_cons, List.not_mem_nil, or_false] at inside
    rcases inside with rfl | rfl
    · decide
    · exact line
  | hex =>
    obtain ⟨first, second⟩ := hexDigits_hex b
    simp only [List.mem_cons, List.not_mem_nil, or_false] at inside
    rcases inside with rfl | rfl | rfl | rfl
    · decide
    · decide
    · exact (hexDigit_plain _ first).2.2
    · exact (hexDigit_plain _ second).2.2

theorem escaped_plain {text : Bytes} (none : 0x5c ∉ escaped text) : escaped text = text := by
  induction text with
  | nil => rfl
  | cons b rest ih =>
    rw [escaped, List.flatMap_cons] at none ⊢
    rw [List.mem_append, not_or] at none
    rw [← escaped] at none ⊢
    rw [ih none.2]
    have written := stringByte_written b
    generalize stringByte b = word at written none
    cases written with
    | plain => rfl
    | letter => exact absurd List.mem_cons_self none.1
    | hex => exact absurd List.mem_cons_self none.1

theorem length_escaped (text : Bytes) : text.length ≤ (escaped text).length := by
  induction text with
  | nil => exact Nat.le_refl _
  | cons b rest ih =>
    have written := stringByte_written b
    rw [escaped, List.flatMap_cons, ← escaped, List.length_append, List.length_cons]
    generalize stringByte b = word at written
    cases written <;> simp <;> omega

theorem escaped_backslash {text : Bytes} (member : 0x5c ∈ text) : escaped text ≠ text := by
  intro same
  obtain ⟨before, after, rfl⟩ := List.append_of_mem member
  have lengths := congrArg List.length same
  have low := length_escaped before
  have high := length_escaped after
  simp only [escaped, List.flatMap_append, List.flatMap_cons, List.length_append, List.length_cons] at lengths low high
  rw [show (stringByte 0x5c).length = 2 from rfl] at lengths
  omega

theorem replaceByte_absent {old : UInt8} {text : Bytes} (none : ∀ b ∈ text, b ≠ old) (new : Bytes) :
    Bytes.replaceByte old new text = text := by
  induction text with
  | nil => rfl
  | cons b rest ih =>
    rw [Bytes.replaceByte, List.flatMap_cons, if_neg (none b List.mem_cons_self), ← Bytes.replaceByte,
      ih fun c member => none c (List.mem_cons_of_mem _ member)]
    rfl

theorem string_eq (text : Bytes) : string text = 0x22 :: (escaped text ++ [0x22]) := rfl

def reread (text : Bytes) : Bytes := if escaped text = text then text else repaired text

theorem literal_quoted {body : Bytes} (lines : ∀ b ∈ body, b ≠ 0x0a) : Parser.literal (0x22 :: (body ++ [0x22])) =
    if 0x5c ∈ body then ((unescape body).map fun text => (text, true)).getD (body, false) else (body, true) := by
  have inner : ((0x22 :: (body ++ [0x22])).drop 1).dropLast = body := by simp
  have long : ¬ (0x22 :: (body ++ [0x22])).length < 2 := by simp
  rw [Parser.literal]
  simp only [inner, long, if_false, List.elem_iff, replaceByte_absent lines]
  cases unescape body <;> rfl

theorem literal_string (text : Bytes) : Parser.literal (string text) = (reread text, true) := by
  rw [string_eq, literal_quoted (escaped_lines text), unescape_escaped, reread]
  by_cases backslash : (0x5c : UInt8) ∈ escaped text
  · -- A text with a backslash is not written as it stands.
    have changed : escaped text ≠ text := fun same => escaped_backslash (same ▸ backslash) same
    rw [if_pos backslash, if_neg changed]
    rfl
  · have plain := escaped_plain backslash
    rw [if_neg backslash, if_pos plain, plain]

-- The strings that come back as they were.
def Legible (text : Bytes) : Prop := escaped text = text ∨ isWellFormed text = true

theorem reread_eq_iff (text : Bytes) : reread text = text ↔ Legible text := by
  rw [reread, Legible]
  split
  · rename_i plain
    simp [plain]
  · rename_i changed
    simp [changed, repaired_eq_iff]

end DeviceTree.Printer
