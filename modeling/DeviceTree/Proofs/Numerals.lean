import Mathlib
import DeviceTree.Source.Parser

namespace DeviceTree.Bytes

theorem digit_value : ∀ d < 16, digitValue (Nat.digitChar d).toUInt8 = some d := by decide

theorem digit_hex : ∀ d < 16, isHexDigit (Nat.digitChar d).toUInt8 = true := by decide

def addDigit (base value : Nat) (b : UInt8) : Option Nat :=
  match digitValue b with
  | some d => if d < base then some (value * base + d) else none
  | none => none

theorem addDigit_digit {base d : Nat} (value : Nat) (small : base ≤ 16) (digit : d < base) :
    addDigit base value (Nat.digitChar d).toUInt8 = some (value * base + d) := by
  rw [addDigit, digit_value d (by omega)]
  simp [digit]

theorem readDigits_toDigits {base : Nat} (n : Nat) (large : 1 < base) (small : base ≤ 16) :
    readDigits base ((Nat.toDigits base n).map Char.toUInt8) = some n := by
  have fold : ((Nat.toDigits base n).map Char.toUInt8).foldlM (addDigit base) 0 = some n := by
    induction n using Nat.strongRecOn with
    | ind n ih =>
      rw [Nat.toDigits_eq_if large]
      split
      · rename_i digit
        simp [addDigit_digit 0 small digit]
      · have below : n / base < n := Nat.div_lt_self (by omega) large
        have last : n % base < base := Nat.mod_lt n (by omega)
        rw [List.map_append, List.foldlM_append, ih _ below]
        simp only [List.map_cons, List.map_nil, Option.bind_eq_bind, Option.bind_some, List.foldlM_cons,
          addDigit_digit _ small last, List.foldlM_nil]
        exact congrArg some (Nat.div_add_mod' n base)
  have nonempty : ((Nat.toDigits base n).map Char.toUInt8).isEmpty = false := by
    rw [List.isEmpty_map, List.isEmpty_eq_false_iff]
    exact Nat.toDigits_ne_nil
  rw [readDigits, nonempty]
  exact fold

theorem digits_mem {base n : Nat} (large : 1 < base) {b : UInt8} (member : b ∈ (Nat.toDigits base n).map Char.toUInt8) :
    ∃ d < base, b = (Nat.digitChar d).toUInt8 := by
  induction n using Nat.strongRecOn with
  | ind n ih =>
    rw [Nat.toDigits_eq_if large] at member
    split at member
    · rename_i digit
      exact ⟨n, digit, by simpa using member⟩
    · rw [List.map_append, List.mem_append] at member
      rcases member with high | low
      · exact ih _ (Nat.div_lt_self (by omega) large) high
      · exact ⟨n % base, Nat.mod_lt n (by omega), by simpa using low⟩

theorem hex_digits (n : Nat) : ∀ b ∈ hex n, isHexDigit b = true := by
  intro b member
  obtain ⟨d, bound, rfl⟩ := digits_mem (by decide) member
  exact digit_hex d bound

theorem readUInt64_hex {n : Nat} (fits : n < 2 ^ 64) : readUInt64 16 (hex n) = some n.toUInt64 := by
  rw [readUInt64, hex, readDigits_toDigits n (by decide) (by decide)]
  exact if_pos fits

end DeviceTree.Bytes

namespace DeviceTree

def hexNumeral (n : Nat) : Bytes := utf8 "0x" ++ Bytes.hex n

theorem hexNumeral_eq (n : Nat) : hexNumeral n = 0x30 :: 0x78 :: Bytes.hex n := rfl

theorem forall_byte {p : UInt8 → Prop} (each : ∀ n < 256, p (UInt8.ofNat n)) : ∀ b, p b := by
  intro b
  have here := each b.toNat b.toNat_lt
  rwa [UInt8.ofNat_toNat] at here

section Each

variable {p : UInt8 → Prop} [DecidablePred p]

-- A property of the bytes of a text is decided for these bytes, and not for every byte there is.
instance (text : Bytes) : Decidable (∀ b ∈ text, p b) := List.decidableBAll p text

instance decidableEach (found : Option UInt8) : Decidable (∀ b ∈ found, p b) := Option.decidableForallMem found

end Each

theorem byte_of_char {b : UInt8} {c : Char} (same : Char.ofUInt8 b = c) : b = c.toUInt8 := by
  have back : ∀ b : UInt8, b = (Char.ofUInt8 b).toUInt8 := forall_byte (by decide +kernel)
  rw [← same]
  exact back b

theorem hex_ascii : ∀ b : UInt8, Bytes.isHexDigit b = true →
    b < 0x80 ∧ Bytes.isWord b = true ∧ (Text.Rune.scalar b.toNat).isSpace = false :=
  forall_byte (by decide +kernel)

namespace Text

theorem decode_ascii {text : Bytes} (ascii : ∀ b ∈ text, b < 0x80) : decode text = text.map fun b => .scalar b.toNat := by
  induction text with
  | nil => simp [decode]
  | cons b rest ih =>
    have small := ascii b List.mem_cons_self
    rw [decode, decodeAfter.eq_def, if_pos small]
    simp [ih fun c member => ascii c (List.mem_cons_of_mem _ member)]

theorem encode_ascii {text : Bytes} (ascii : ∀ b ∈ text, b < 0x80) :
    encode (text.map fun b => .scalar b.toNat) = text := by
  induction text with
  | nil => rfl
  | cons b rest ih =>
    have small : b.toNat < 0x80 := UInt8.lt_iff_toNat_lt.mp (ascii b List.mem_cons_self)
    have tail := ih fun c member => ascii c (List.mem_cons_of_mem _ member)
    simp only [encode, List.map_cons, List.flatMap_cons, Rune.encode, encodeCode, small, if_true] at tail ⊢
    simp [tail]

theorem trimSpace_plain {text : Bytes} (ascii : ∀ b ∈ text, b < 0x80)
    (solid : ∀ b ∈ text, (Rune.scalar b.toNat).isSpace = false) : trimSpace text = text := by
  have kept : ∀ runes : List Rune, (∀ r ∈ runes, r.isSpace = false) → runes.dropWhile Rune.isSpace = runes := by
    intro runes none
    cases runes with
    | nil => rfl
    | cons r rest => rw [List.dropWhile_cons, none r List.mem_cons_self]; rfl
  have runes : ∀ r ∈ decode text, r.isSpace = false := by
    rw [decode_ascii ascii]
    intro r member
    obtain ⟨b, present, rfl⟩ := List.mem_map.mp member
    exact solid b present
  rw [trimSpace, kept _ runes, kept _ fun r member => runes r (List.mem_reverse.mp member), List.reverse_reverse,
    decode_ascii ascii, encode_ascii ascii]

end Text

theorem Suffix.stripAfter_word {text : Bytes} (word : ∀ b ∈ text, Bytes.isWord b = true) : stripAfter true text = text := by
  induction text with
  | nil => rw [stripAfter]
  | cons b rest ih =>
    have first := word b List.mem_cons_self
    rw [stripAfter]
    simp only [Bool.not_true, Bool.false_and, Bool.false_eq_true, if_false, first]
    rw [ih fun c member => word c (List.mem_cons_of_mem _ member)]

theorem Suffix.split_hexNumeral (n : Nat) : split? (hexNumeral n) = none := by
  have digits := List.takeWhile_eq_self_iff.mpr (Bytes.hex_digits n)
  have word : (0x78 :: Bytes.hex n).takeWhile Bytes.isWord = 0x78 :: Bytes.hex n := by
    refine List.takeWhile_eq_self_iff.mpr fun b member => ?_
    rcases List.mem_cons.mp member with rfl | digit
    · rfl
    · exact (hex_ascii b (Bytes.hex_digits n b digit)).2.1
  have hexadecimal : (hexLength (hexNumeral n)).bind
      (fun k => (suffixLength integral ((hexNumeral n).drop k)).map (k, ·)) = none := by
    simp only [hexNumeral_eq, hexLength, digits]
    split
    · have rest : (0x30 :: 0x78 :: Bytes.hex n).drop (2 + (Bytes.hex n).length) = [] := by simp; omega
      simp only [Option.bind_some, rest]
      rfl
    · rfl
  have decimal : decimalLength (hexNumeral n) = 1 := rfl
  have noSuffix : suffixLength general (0x78 :: Bytes.hex n) = none := by
    rw [suffixLength, word]
    rfl
  rw [split?, hexadecimal]
  simp only [decimal]
  rw [show (hexNumeral n).drop 1 = 0x78 :: Bytes.hex n from rfl, noSuffix]
  rfl

theorem Suffix.strip_hexNumeral (n : Nat) : strip (hexNumeral n) = hexNumeral n := by
  have word : ∀ b ∈ 0x78 :: Bytes.hex n, Bytes.isWord b = true := by
    intro b member
    rcases List.mem_cons.mp member with rfl | digit
    · rfl
    · exact (hex_ascii b (Bytes.hex_digits n b digit)).2.1
  have whole := split_hexNumeral n
  rw [strip, hexNumeral_eq, stripAfter, ← hexNumeral_eq, whole]
  exact congrArg (0x30 :: ·) (stripAfter_word word)

namespace Expr

theorem tokens_hexNumeral {n : Nat} (fits : n < 2 ^ 64) : tokens? (hexNumeral n) = some [.number n.toUInt64.toInt64] := by
  have digits := List.takeWhile_eq_self_iff.mpr (Bytes.hex_digits n)
  have read : numeral (hexNumeral n) = some (n.toUInt64.toInt64, 2 + (Bytes.hex n).length) := by
    simp [hexNumeral_eq, numeral, digits, Bytes.readUInt64_hex fits]
  have token : Token.read? 0x30 (0x78 :: Bytes.hex n) = some (.number n.toUInt64.toInt64, 1 + (Bytes.hex n).length) := by
    have first : Token.read? 0x30 (0x78 :: Bytes.hex n) =
        (numeral (hexNumeral n)).map fun r => (.number r.1, r.2 - 1) := rfl
    rw [first, read, Option.map_some]
    simp only [Option.some.injEq, Prod.mk.injEq, true_and]
    omega
  have rest : (0x78 :: Bytes.hex n).drop (1 + (Bytes.hex n).length) = [] :=
    List.drop_eq_nil_of_le (Nat.le_of_eq (Nat.add_comm _ _))
  rw [hexNumeral_eq, tokens?]
  simp only [token, rest, tokens?]
  rfl

theorem value_hexNumeral {n : Nat} (fits : n < 2 ^ 64) : value? (hexNumeral n) = some n.toUInt64.toInt64 := by
  have bytes : ∀ b ∈ hexNumeral n, b < 0x80 ∧ (Text.Rune.scalar b.toNat).isSpace = false := by
    intro b member
    rw [hexNumeral_eq, List.mem_cons, List.mem_cons] at member
    rcases member with rfl | rfl | digit
    · decide
    · decide
    · have plain := hex_ascii b (Bytes.hex_digits n b digit)
      exact ⟨plain.1, plain.2.2⟩
  have trimmed := Text.trimSpace_plain (fun b member => (bytes b member).1) fun b member => (bytes b member).2
  rw [value?, parse?, trimmed, Suffix.strip_hexNumeral, tokens_hexNumeral fits]
  rfl

end Expr
end DeviceTree
