import DeviceTree.Proofs.Lexing
import DeviceTree.Proofs.Expressions

namespace DeviceTree

inductive Numeral (base : Nat) : Bytes → Nat → Prop where
  | digit {b : UInt8} {d : Nat} (value : Bytes.digitValue b = some d) (small : d < base) : Numeral base [b] d
  | more {text : Bytes} {n : Nat} {b : UInt8} {d : Nat} (front : Numeral base text n) (value : Bytes.digitValue b = some d)
      (small : d < base) : Numeral base (text ++ [b]) (n * base + d)

-- The forms of an integer. A zero in front makes digits octal, unless it stands alone.
inductive Writes : Bytes → Nat → Prop where
  | hex {mark : UInt8} {digits : Bytes} {n : Nat} (marked : Suffix.isHexMark mark = true) (number : Numeral 16 digits n) :
      Writes (0x30 :: mark :: digits) n
  | octal {digits : Bytes} {n : Nat} (number : Numeral 8 digits n) : Writes (0x30 :: digits) n
  | decimal {digits : Bytes} {n : Nat} (number : Numeral 10 digits n) (lead : digits = [0x30] ∨ digits.head? ≠ some 0x30) :
      Writes digits n

inductive Exponent : Bytes → Int → Prop where
  | absent : Exponent [] 0
  | plain {mark : UInt8} {digits : Bytes} {n : Nat} (marked : Decimal.isExponentMark mark = true)
      (number : Numeral 10 digits n) : Exponent (mark :: digits) n
  | plus {mark : UInt8} {digits : Bytes} {n : Nat} (marked : Decimal.isExponentMark mark = true)
      (number : Numeral 10 digits n) : Exponent (mark :: 0x2b :: digits) n
  | minus {mark : UInt8} {digits : Bytes} {n : Nat} (marked : Decimal.isExponentMark mark = true)
      (number : Numeral 10 digits n) : Exponent (mark :: 0x2d :: digits) (-n)

inductive Pointed : Bytes → Decimal → Prop where
  | mk {whole fraction exponent : Bytes} {n : Nat} {e : Int} (digits : ∀ b ∈ whole, Bytes.isDigit b = true)
      (number : Numeral 10 (whole ++ fraction) n) (scale : Exponent exponent e) :
      Pointed (whole ++ 0x2e :: (fraction ++ exponent)) ⟨n, e - fraction.length⟩

namespace Bytes

theorem digit_of_value : ∀ b : UInt8, ∀ d, digitValue b = some d → d < 10 → isDigit b = true := by
  intro b d value small
  unfold digitValue at value
  split at value
  · assumption
  · split at value
    · cases value
      omega
    · cases value

theorem hexDigit_of_value {b : UInt8} {d : Nat} (value : digitValue b = some d) : isHexDigit b = true := by
  unfold digitValue at value
  split at value
  · rename_i digit
    simp [isHexDigit, digit]
  · split at value
    · assumption
    · cases value

theorem value_of_digit : ∀ b : UInt8, isDigit b = true → ∃ d < 10, digitValue b = some d :=
  forall_byte (by decide +kernel)

end Bytes

attribute [grind =] Bytes.isDigit Bytes.isLower Bytes.isUpper Bytes.isLetter Bytes.isHexDigit Bytes.isWord
  Decimal.isExponentMark Decimal.isSign Suffix.isHexMark Expr.isNameStart Expr.isBlank

theorem byte_outside_word : ∀ b : UInt8, Bytes.isWord b = false → Bytes.isDigit b = false ∧ Bytes.isHexDigit b = false ∧
    Decimal.isExponentMark b = false ∧ Suffix.isHexMark b = false ∧ Expr.isNameStart b = false := by
  grind

theorem byte_of_digit : ∀ b : UInt8, Bytes.isDigit b = true →
    Bytes.isWord b = true ∧ Decimal.isExponentMark b = false ∧ Decimal.isSign b = false := by
  grind

theorem byte_of_exponentMark : ∀ b : UInt8, Decimal.isExponentMark b = true →
    Bytes.isWord b = true ∧ Bytes.isDigit b = false ∧ b ≠ 0x2e := by
  grind

theorem byte_of_hexMark : ∀ b : UInt8, Suffix.isHexMark b = true →
    Bytes.isWord b = true ∧ Bytes.isDigit b = false ∧ Decimal.isExponentMark b = false ∧ b ≠ 0x2e := by
  grind

theorem byte_of_decimal : ∀ b : UInt8, (Decimal.isExponentMark b = true ∨ Decimal.isSign b = true ∨
    Bytes.isDigit b = true ∨ b = 0x2e) → Suffix.isHexMark b = false := by
  grind

theorem byte_of_neither : ∀ b : UInt8, Bytes.isDigit b = false → Expr.isNameStart b = false → Bytes.isWord b = false := by
  grind

section Digits

variable {base n m : Nat} {text : Bytes}

theorem Numeral.ne_nil (number : Numeral base text n) : text ≠ [] := by
  cases number with
  | digit => exact List.cons_ne_nil _ _
  | more => exact List.append_ne_nil_of_right_ne_nil _ (List.cons_ne_nil _ _)

theorem Numeral.values (number : Numeral base text n) : ∀ b ∈ text, ∃ d < base, Bytes.digitValue b = some d := by
  induction number with
  | @digit b d value small =>
    intro c member
    cases List.mem_singleton.mp member
    exact ⟨d, small, value⟩
  | @more text n b d front value small ih =>
    intro c member
    rcases List.mem_append.mp member with before | last
    · exact ih c before
    · cases List.mem_singleton.mp last
      exact ⟨d, small, value⟩

theorem Numeral.digits (number : Numeral base text n) (small : base ≤ 10) : ∀ b ∈ text, Bytes.isDigit b = true := by
  intro b member
  obtain ⟨d, bound, value⟩ := number.values b member
  exact Bytes.digit_of_value b d value (bound.trans_le small)

theorem Numeral.behind {front back : Bytes} (number : Numeral base (front ++ back) n) (small : base ≤ 10) :
    ∀ b ∈ back, Bytes.isDigit b = true :=
  fun b member => number.digits small b (List.mem_append_right _ member)

theorem Numeral.hexDigits (number : Numeral base text n) : ∀ b ∈ text, Bytes.isHexDigit b = true := by
  intro b member
  obtain ⟨d, -, value⟩ := number.values b member
  exact Bytes.hexDigit_of_value value

theorem addDigit_eq_some_iff {value : Nat} {b : UInt8} :
    Bytes.addDigit base value b = some n ↔ ∃ d < base, Bytes.digitValue b = some d ∧ n = value * base + d := by
  unfold Bytes.addDigit
  cases Bytes.digitValue b with
  | none => exact iff_of_false nofun fun ⟨d, _, found, _⟩ => nomatch found
  | some d =>
    dsimp only
    split
    · rename_i small
      constructor
      · intro same
        exact ⟨d, small, rfl, (Option.some.inj same).symm⟩
      · intro ⟨d', _, found, same⟩
        rw [same, Option.some.inj found]
    · rename_i large
      refine iff_of_false nofun ?_
      intro ⟨d', small, found, _⟩
      exact large (Option.some.inj found ▸ small)

theorem foldlM_addDigit_snoc (front : Bytes) (b : UInt8) :
    (front ++ [b]).foldlM (Bytes.addDigit base) 0 =
      (front.foldlM (Bytes.addDigit base) 0).bind (Bytes.addDigit base · b) := by
  simp

theorem foldlM_addDigit_iff (filled : text ≠ []) :
    text.foldlM (Bytes.addDigit base) 0 = some n ↔ Numeral base text n := by
  constructor
  · intro read
    induction text using List.reverseRecOn generalizing n with
    | nil => exact absurd rfl filled
    | append_singleton front b ih =>
      rw [foldlM_addDigit_snoc, Option.bind_eq_some_iff] at read
      obtain ⟨value, before, last⟩ := read
      obtain ⟨d, small, found, same⟩ := addDigit_eq_some_iff.mp last
      subst same
      cases front with
      | nil =>
        cases before
        rw [Nat.zero_mul, Nat.zero_add]
        exact .digit found small
      | cons c rest => exact .more (ih (List.cons_ne_nil c rest) before) found small
  · intro number
    induction number with
    | @digit b d found small =>
      rw [← List.nil_append [b], foldlM_addDigit_snoc]
      exact addDigit_eq_some_iff.mpr ⟨d, small, found, by omega⟩
    | @more front value b d before found small ih =>
      rw [foldlM_addDigit_snoc, ih before.ne_nil]
      exact addDigit_eq_some_iff.mpr ⟨d, small, found, rfl⟩

theorem readDigits_eq_some_iff : Bytes.readDigits base text = some n ↔ Numeral base text n := by
  rw [Bytes.readDigits]
  cases text with
  | nil => exact iff_of_false (by simp) fun number => number.ne_nil rfl
  | cons b rest => exact foldlM_addDigit_iff (List.cons_ne_nil b rest)

theorem Numeral.exists (filled : text ≠ []) (values : ∀ b ∈ text, ∃ d < base, Bytes.digitValue b = some d) :
    ∃ n, Numeral base text n := by
  induction text using List.reverseRecOn with
  | nil => exact absurd rfl filled
  | append_singleton front b ih =>
    obtain ⟨d, small, value⟩ := values b (List.mem_append_right _ List.mem_cons_self)
    cases front with
    | nil => exact ⟨d, .digit value small⟩
    | cons c rest =>
      obtain ⟨n, number⟩ := ih (List.cons_ne_nil c rest) fun c member => values c (List.mem_append_left _ member)
      exact ⟨n * base + d, .more number value small⟩

theorem numeral_zero_iff (positive : 0 < base) (filled : text ≠ []) :
    Numeral base (0x30 :: text) n ↔ Numeral base text n := by
  have zero : Bytes.addDigit base 0 0x30 = some 0 := addDigit_eq_some_iff.mpr ⟨0, positive, rfl, by omega⟩
  rw [← foldlM_addDigit_iff (List.cons_ne_nil _ _), ← foldlM_addDigit_iff filled, List.foldlM_cons, zero]
  rfl

end Digits

theorem dropWhile_stop {p : UInt8 → Bool} {word tail : Bytes} (all : ∀ b ∈ word, p b = true)
    (stop : ∀ b ∈ tail.head?, p b = false) : (word ++ tail).dropWhile p = tail := by
  rw [List.dropWhile_append_of_pos all]
  cases tail with
  | nil => rfl
  | cons b rest => rw [List.dropWhile_cons_of_neg (by simp [stop b rfl])]

section Pointed

variable {text : Bytes} {e : Int} {d : Decimal}

theorem readExponent_eq_some_iff : Decimal.readExponent text = some e ↔ Exponent text e := by
  constructor
  · intro read
    unfold Decimal.readExponent at read
    split at read
    · cases read
      exact .absent
    · rename_i mark rest
      split at read
      · rename_i marked
        split at read
        · rename_i sign digits
          split at read
          · rename_i signed
            obtain ⟨k, lifted, same⟩ := Option.map_eq_some_iff.mp read
            obtain ⟨n, found, number⟩ := Option.bind_eq_some_iff.mp lifted
            cases number
            have number := readDigits_eq_some_iff.mp found
            subst same
            by_cases minus : sign = 0x2d
            · subst minus
              exact .minus marked number
            · have plus : sign = 0x2b := by simpa [Decimal.isSign, minus] using signed
              subst plus
              exact .plus marked number
          · obtain ⟨n, number, same⟩ := Option.map_eq_some_iff.mp read
            subst same
            exact .plain marked (readDigits_eq_some_iff.mp number)
        · cases read
      · cases read
  · intro exponent
    cases exponent with
    | absent => rfl
    | @plain mark digits n marked number =>
      have read := readDigits_eq_some_iff.mpr number
      cases digits with
      | nil => exact absurd rfl number.ne_nil
      | cons c rest =>
        have digit := number.digits (by decide) c List.mem_cons_self
        have unsigned := (byte_of_digit c digit).2.2
        simp [Decimal.readExponent, marked, unsigned, read]
    | plus marked number => simp [Decimal.readExponent, marked, Decimal.isSign, readDigits_eq_some_iff.mpr number]
    | minus marked number => simp [Decimal.readExponent, marked, Decimal.isSign, readDigits_eq_some_iff.mpr number]

theorem Exponent.bytes (exponent : Exponent text e) :
    ∀ b ∈ text, Decimal.isExponentMark b = true ∨ Decimal.isSign b = true ∨ Bytes.isDigit b = true := by
  cases exponent with
  | absent => exact fun b member => nomatch member
  | plain marked number =>
    exact List.forall_mem_cons.mpr ⟨.inl marked, fun b member => .inr (.inr (number.digits (by decide) b member))⟩
  | plus marked number =>
    refine List.forall_mem_cons.mpr ⟨.inl marked, List.forall_mem_cons.mpr ⟨.inr (.inl rfl), fun b member => ?_⟩⟩
    exact .inr (.inr (number.digits (by decide) b member))
  | minus marked number =>
    refine List.forall_mem_cons.mpr ⟨.inl marked, List.forall_mem_cons.mpr ⟨.inr (.inl rfl), fun b member => ?_⟩⟩
    exact .inr (.inr (number.digits (by decide) b member))

theorem point_not_exponent (exponent : Exponent text e) : 0x2e ∉ text := by
  intro member
  have kinds := exponent.bytes 0x2e member
  revert kinds
  decide

theorem Exponent.first (exponent : Exponent text e) : ∀ b ∈ text.head?, Decimal.isExponentMark b = true := by
  intro b first
  cases exponent with
  | absent => cases first
  | plain marked => exact Option.some.inj first ▸ marked
  | plus marked => exact Option.some.inj first ▸ marked
  | minus marked => exact Option.some.inj first ▸ marked

theorem Exponent.stops (exponent : Exponent text e) : ∀ b ∈ text.head?, Bytes.isDigit b = false :=
  fun b first => (byte_of_exponentMark b (exponent.first b first)).2.1

theorem read_point {whole fraction tail : Bytes} (front : ∀ b ∈ whole, Bytes.isDigit b = true)
    (behind : ∀ b ∈ fraction, Bytes.isDigit b = true) (stops : ∀ b ∈ tail.head?, Bytes.isDigit b = false) :
    Decimal.read (whole ++ 0x2e :: (fraction ++ tail)) =
      (Bytes.readDigits 10 (whole ++ fraction)).bind fun n =>
        (Decimal.readExponent tail).map fun e => ⟨n, e - fraction.length⟩ := by
  have point : ∀ b ∈ (0x2e :: (fraction ++ tail)).head?, Bytes.isDigit b = false :=
    fun b first => Option.some.inj first ▸ rfl
  rw [Decimal.read]
  simp only [Lexer.takeWhile_stop front point, dropWhile_stop front point, Lexer.takeWhile_stop behind stops,
    dropWhile_stop behind stops]
  cases Bytes.readDigits 10 (whole ++ fraction) with
  | none => rfl
  | some n => cases Decimal.readExponent tail <;> rfl

theorem readExponent_of_read {whole rest : Bytes} (front : ∀ b ∈ whole, Bytes.isDigit b = true)
    (stops : ∀ b ∈ rest.head?, Bytes.isDigit b = false) (plain : rest.head? ≠ some 0x2e)
    (read : Decimal.read (whole ++ rest) = some d) : ∃ e, Decimal.readExponent rest = some e := by
  rw [Decimal.read] at read
  simp only [Lexer.takeWhile_stop front stops, dropWhile_stop front stops] at read
  split at read
  · rename_i n e _ found
    split at found
    · exact absurd rfl plain
    · exact ⟨e, found⟩
  · cases read

theorem read_eq_some_iff : (0x2e ∈ text ∧ Decimal.read text = some d) ↔ Pointed text d := by
  constructor
  · intro ⟨point, read⟩
    obtain ⟨whole, rest, same, front, stop⟩ := Lexer.takeWhile_cut Bytes.isDigit text
    subst same
    by_cases pointed : rest.head? = some 0x2e
    · obtain ⟨behind, same⟩ := List.head?_eq_some_iff.mp pointed
      obtain ⟨fraction, tail, same', digits, stops⟩ := Lexer.takeWhile_cut Bytes.isDigit behind
      subst same same'
      rw [read_point front digits stops, Option.bind_eq_some_iff] at read
      obtain ⟨n, number, scaled⟩ := read
      obtain ⟨e, scale, same⟩ := Option.map_eq_some_iff.mp scaled
      subst same
      exact .mk front (readDigits_eq_some_iff.mp number) (readExponent_eq_some_iff.mp scale)
    · obtain ⟨e, scale⟩ := readExponent_of_read front stop pointed read
      have none := point_not_exponent (readExponent_eq_some_iff.mp scale)
      have noDigit : 0x2e ∉ whole := fun member => absurd (front _ member) (by decide)
      exact absurd point (by simp [none, noDigit])
  · intro pointed
    obtain ⟨front, number, scale⟩ := pointed
    refine ⟨by simp, ?_⟩
    rw [read_point front (number.behind (by decide)) scale.stops, readDigits_eq_some_iff.mpr number, readExponent_eq_some_iff.mpr scale]
    rfl

end Pointed

-- A numeral without a suffix and its word; an integer that does not fit has none.
inductive Literal : Bytes → Option Int64 → Prop where
  | integer {text : Bytes} {n : Nat} (writes : Writes text n) :
      Literal text (if n < 2 ^ 64 then some (Int64.ofNat n) else none)
  | pointed {text : Bytes} {d : Decimal} (numeral : Pointed text d) : Literal text d.toInt64

theorem hex_words {mark : UInt8} {digits : Bytes} (marked : Suffix.isHexMark mark = true)
    (all : ∀ b ∈ digits, Bytes.isHexDigit b = true) : ∀ b ∈ mark :: digits, Bytes.isWord b = true :=
  List.forall_mem_cons.mpr ⟨(byte_of_hexMark mark marked).1, fun b member => (hex_ascii b (all b member)).2.1⟩

theorem Writes.words {text : Bytes} {n : Nat} (writes : Writes text n) : ∀ b ∈ text, Bytes.isWord b = true := by
  cases writes with
  | hex marked number => exact List.forall_mem_cons.mpr ⟨rfl, hex_words marked number.hexDigits⟩
  | octal number =>
    exact List.forall_mem_cons.mpr ⟨rfl, fun b member => (byte_of_digit b (number.digits (by decide) b member)).1⟩
  | decimal number => exact fun b member => (byte_of_digit b (number.digits (by decide) b member)).1

theorem first_digit {digits : Bytes} (filled : digits ≠ []) (all : ∀ b ∈ digits, Bytes.isDigit b = true) :
    ∃ b rest, digits = b :: rest ∧ Bytes.isDigit b = true := by
  obtain ⟨b, rest, same⟩ := List.exists_cons_of_ne_nil filled
  exact ⟨b, rest, same, all b (same ▸ List.mem_cons_self)⟩

theorem Literal.first {text : Bytes} {v : Option Int64} (literal : Literal text v) :
    ∃ b rest, text = b :: rest ∧ (Bytes.isDigit b = true ∨ b = 0x2e) := by
  cases literal with
  | integer writes =>
    cases writes with
    | hex => exact ⟨_, _, rfl, .inl rfl⟩
    | octal => exact ⟨_, _, rfl, .inl rfl⟩
    | decimal number =>
      obtain ⟨b, rest, same, digit⟩ := first_digit number.ne_nil (number.digits (by decide))
      exact ⟨b, rest, same, .inl digit⟩
  | pointed pointed =>
    obtain ⟨front, -, -⟩ := pointed
    rename_i whole fraction exponent n e
    cases whole with
    | nil => exact ⟨0x2e, _, rfl, .inr rfl⟩
    | cons b rest => exact ⟨b, _, rfl, .inl (front b List.mem_cons_self)⟩

-- The outline of a numeral that is not hexadecimal. Each of its parts may be absent.
inductive Shaped : Bytes → Prop where
  | mk {whole fraction exponent : Bytes} {e : Int} (front : ∀ b ∈ whole, Bytes.isDigit b = true)
      (point : fraction = [] ∨ ∃ digits, fraction = 0x2e :: digits ∧ ∀ b ∈ digits, Bytes.isDigit b = true)
      (scale : Exponent exponent e) : Shaped (whole ++ (fraction ++ exponent))

theorem shaped_of_digits {text : Bytes} (digits : ∀ b ∈ text, Bytes.isDigit b = true) : Shaped text := by
  have whole := Shaped.mk digits (.inl rfl) .absent
  rwa [List.append_nil, List.append_nil] at whole

theorem Pointed.shaped {text : Bytes} {d : Decimal} (pointed : Pointed text d) : Shaped text := by
  obtain ⟨front, number, scale⟩ := pointed
  exact .mk front (.inr ⟨_, rfl, number.behind (by decide)⟩) scale

theorem Shaped.bytes {text : Bytes} (shaped : Shaped text) : ∀ b ∈ text,
    Decimal.isExponentMark b = true ∨ Decimal.isSign b = true ∨ Bytes.isDigit b = true ∨ b = 0x2e := by
  obtain ⟨front, point, scale⟩ := shaped
  intro b member
  rcases List.mem_append.mp member with whole | rest
  · exact .inr (.inr (.inl (front b whole)))
  · rcases List.mem_append.mp rest with fraction | exponent
    · rcases point with none | ⟨digits, same, behind⟩
      · rw [none] at fraction
        cases fraction
      · rw [same, List.mem_cons] at fraction
        exact .inr (.inr (fraction.symm.imp_left (behind b)))
    · exact (scale.bytes b exponent).imp_right (·.imp_right .inl)

theorem Shaped.noHexMark {text : Bytes} (shaped : Shaped text) : ∀ b ∈ text, Suffix.isHexMark b = false :=
  fun b member => byte_of_decimal b (shaped.bytes b member)

theorem Shaped.second {text tail : Bytes} (shaped : Shaped text) (filled : text ≠ [])
    (next : ∀ b ∈ tail.head?, Suffix.isHexMark b = false) :
    ∀ mark more, text ++ tail = 0x30 :: mark :: more → Suffix.isHexMark mark = false := by
  intro mark more split
  rcases List.append_eq_cons_iff.mp split with ⟨none, -⟩ | ⟨rest, same, others⟩
  · exact absurd none filled
  · rcases List.append_eq_cons_iff.mp others.symm with ⟨-, behind⟩ | ⟨_, again, -⟩
    · exact next mark (by rw [behind]; rfl)
    · exact shaped.noHexMark mark (by simp [same, again])

def Delimits (tail : Bytes) : Prop := ∀ b ∈ tail.head?, Bytes.isWord b = false ∧ b ≠ 0x2e

section Delimits

variable {tail : Bytes}

theorem Delimits.noWord (ends : Delimits tail) : ∀ b ∈ tail.head?, Bytes.isWord b = false := fun b first => (ends b first).1

theorem Delimits.noDigit (ends : Delimits tail) : ∀ b ∈ tail.head?, Bytes.isDigit b = false :=
  fun b first => (byte_outside_word b (ends b first).1).1

theorem Delimits.noHexDigit (ends : Delimits tail) : ∀ b ∈ tail.head?, Bytes.isHexDigit b = false :=
  fun b first => (byte_outside_word b (ends b first).1).2.1

end Delimits

namespace Expr

section Length

variable {text tail digits : Bytes} {p : Bool}

theorem numeralLength_digits (all : ∀ b ∈ digits, Bytes.isDigit b = true) :
    numeralLength p (digits ++ tail) = digits.length + numeralLength p tail := by
  induction digits with
  | nil => simp
  | cons b rest ih =>
    obtain ⟨first, others⟩ := List.forall_mem_cons.mp all
    rw [List.cons_append, numeralLength.eq_def]
    simp only [first, if_true]
    rw [ih others, List.length_cons]
    omega

theorem numeralLength_exponent {exponent : Bytes} {e : Int} (scale : Exponent exponent e) :
    numeralLength true (exponent ++ tail) = exponent.length + numeralLength true tail := by
  have behind : ∀ {mark s : UInt8} {more : Bytes}, Decimal.isExponentMark mark = true →
      numeralLength true (mark :: s :: more) =
        if Decimal.isSign s then 2 + numeralLength true more else 1 + numeralLength true (s :: more) := by
    intro mark s more marked
    obtain ⟨-, digit, point⟩ := byte_of_exponentMark mark marked
    rw [numeralLength.eq_def]
    simp only [digit, point, marked, Bool.and_self, Bool.false_eq_true, if_false, if_true]
  have signed : ∀ {mark s : UInt8} {digits : Bytes} {n : Nat}, Decimal.isExponentMark mark = true → Decimal.isSign s = true →
      Numeral 10 digits n →
        numeralLength true (mark :: s :: digits ++ tail) = (mark :: s :: digits).length + numeralLength true tail := by
    intro mark s digits n marked sign number
    rw [List.cons_append, List.cons_append, behind marked]
    simp only [sign, if_true]
    rw [numeralLength_digits (number.digits (by decide)), List.length_cons, List.length_cons]
    omega
  cases scale with
  | absent => simp
  | @plain mark digits n marked number =>
    cases digits with
    | nil => exact absurd rfl number.ne_nil
    | cons c rest =>
      have digit := number.digits (by decide)
      have unsigned := (byte_of_digit c (digit c List.mem_cons_self)).2.2
      rw [List.cons_append, List.cons_append, behind marked]
      simp only [unsigned, Bool.false_eq_true, if_false]
      rw [← List.cons_append, numeralLength_digits digit, List.length_cons (a := mark)]
      omega
  | plus marked number => exact signed marked rfl number
  | minus marked number => exact signed marked rfl number

theorem numeralLength_ends (ends : Delimits tail) : numeralLength p tail = 0 := by
  cases tail with
  | nil => rfl
  | cons b rest =>
    obtain ⟨word, point⟩ := ends b rfl
    obtain ⟨digit, -, mark, -⟩ := byte_outside_word b word
    rw [numeralLength.eq_def]
    simp [digit, mark, point]

theorem numeralLength_integer (all : ∀ b ∈ text, Bytes.isDigit b = true) (ends : Delimits tail) :
    numeralLength p (text ++ tail) = text.length := by
  rw [numeralLength_digits all, numeralLength_ends ends, Nat.add_zero]

theorem numeralLength_pointed {d : Decimal} (pointed : Pointed text d) (ends : Delimits tail) :
    numeralLength p (text ++ tail) = text.length := by
  obtain ⟨front, number, scale⟩ := pointed
  rw [List.append_assoc, numeralLength_digits front, List.cons_append, numeralLength.eq_def]
  simp only [show Bytes.isDigit 0x2e = false from rfl, Bool.false_eq_true, if_false, if_true]
  rw [List.append_assoc, numeralLength_digits (number.behind (by decide)), numeralLength_exponent scale, numeralLength_ends ends]
  simp only [List.length_append, List.length_cons]
  omega

theorem numeralLength_le (p : Bool) (text : Bytes) : numeralLength p text ≤ text.length := by
  fun_induction numeralLength p text <;> simp only [List.length_cons, List.length_nil] at * <;> omega

theorem numeralLength_stops (p : Bool) (text : Bytes) :
    ∀ b ∈ (text.drop (numeralLength p text)).head?, Bytes.isDigit b = false ∧ b ≠ 0x2e := by
  fun_induction numeralLength p text with
  | case1 => exact fun b first => nomatch first
  | case2 p b rest digit ih => simpa only [Nat.add_comm 1, List.drop_succ_cons] using ih
  | case3 p rest digit ih => simpa only [Nat.add_comm 1, List.drop_succ_cons] using ih
  | case4 p b digit point marked s more signed ih => simpa only [Nat.add_comm 2, List.drop_succ_cons] using ih
  | case5 p b digit point marked s more signed ih => simpa only [Nat.add_comm 1, List.drop_succ_cons] using ih
  | case6 p b digit point marked => exact fun b first => nomatch first
  | case7 p b rest digit point other =>
    intro c first
    cases first
    exact ⟨Bool.eq_false_of_not_eq_true digit, point⟩

end Length

section Value

variable {text tail : Bytes}

theorem readUInt64_numeral {base n : Nat} (number : Numeral base text n) :
    (Bytes.readUInt64 base text).map UInt64.toInt64 = if n < 2 ^ 64 then some (Int64.ofNat n) else none := by
  rw [Bytes.readUInt64, readDigits_eq_some_iff.mpr number]
  change (if n < 2 ^ 64 then some n.toUInt64 else none).map UInt64.toInt64 = _
  split <;> rfl

theorem numeral_of_readUInt64 {base : Nat} {v : UInt64} (read : Bytes.readUInt64 base text = some v) :
    ∃ n, Numeral base text n ∧ n < 2 ^ 64 ∧ v.toInt64 = Int64.ofNat n := by
  unfold Bytes.readUInt64 at read
  split at read
  · rename_i n found
    split at read
    · rename_i fits
      cases read
      exact ⟨n, readDigits_eq_some_iff.mp found, fits, rfl⟩
    · cases read
  · cases read

theorem numeralValue_integer {n : Nat} (writes : Writes text n) (digits : ∀ b ∈ text, Bytes.isDigit b = true) :
    numeralValue text = if n < 2 ^ 64 then some (Int64.ofNat n) else none := by
  have noPoint : text.contains 0x2e = false := by
    rw [List.contains_eq_mem, decide_eq_false_iff_not]
    exact fun member => absurd (digits _ member) (by decide)
  rw [numeralValue, noPoint]
  dsimp only [Bool.false_eq_true, if_false]
  cases writes with
  | @hex mark rest n marked number =>
    have digit := digits mark (List.mem_cons_of_mem _ List.mem_cons_self)
    rw [(byte_of_hexMark mark marked).2.1] at digit
    cases digit
  | @octal rest n number =>
    have long : (decide ((0x30 :: rest : Bytes).length > 1) && (0x30 :: rest : Bytes).head? == some 0x30) = true := by
      have filled := List.length_pos_iff.mpr number.ne_nil
      simpa using filled
    rw [if_pos long]
    exact readUInt64_numeral ((numeral_zero_iff (by decide) number.ne_nil).mpr number)
  | decimal number lead =>
    have short : (decide (text.length > 1) && text.head? == some 0x30) = false := by
      rcases lead with zero | other
      · simp [zero]
      · simp [other]
    rw [short]
    exact readUInt64_numeral number

theorem numeralValue_pointed {d : Decimal} (pointed : Pointed text d) : numeralValue text = d.toInt64 := by
  obtain ⟨point, read⟩ := read_eq_some_iff.mpr pointed
  rw [numeralValue, if_pos (List.contains_iff_mem.mpr point), read]
  rfl

theorem literal_of_numeralValue {v : Int64} (value : numeralValue text = some v) : Literal text (some v) ∧ Shaped text := by
  unfold numeralValue at value
  split at value
  · rename_i point
    obtain ⟨d, read, word⟩ := Option.bind_eq_some_iff.mp value
    have pointed := read_eq_some_iff.mp ⟨List.contains_iff_mem.mp point, read⟩
    exact ⟨word ▸ .pointed pointed, pointed.shaped⟩
  · obtain ⟨u, read, same⟩ := Option.map_eq_some_iff.mp value
    subst same
    obtain ⟨n, number, fits, same⟩ := numeral_of_readUInt64 read
    rw [same]
    have integer : ∀ {text : Bytes}, Writes text n → Literal text (some (Int64.ofNat n)) := by
      intro text writes
      have literal := Literal.integer writes
      rwa [if_pos fits] at literal
    split at number
    · rename_i octal
      obtain ⟨long, lead⟩ := Bool.and_eq_true_iff.mp octal
      obtain ⟨digits, split⟩ := List.head?_eq_some_iff.mp (beq_iff_eq.mp lead)
      subst split
      have filled : digits ≠ [] := by
        intro none
        simp [none] at long
      have digit := number.digits (by decide)
      exact ⟨integer (.octal ((numeral_zero_iff (by decide) filled).mp number)), shaped_of_digits digit⟩
    · rename_i decimal
      refine ⟨integer (.decimal number ?_), shaped_of_digits (number.digits (by decide))⟩
      by_cases zero : text.head? = some 0x30
      · obtain ⟨digits, split⟩ := List.head?_eq_some_iff.mp zero
        subst split
        cases digits with
        | nil => exact .inl rfl
        | cons b rest => simp at decimal
      · exact .inr zero

end Value

section Reading

variable {text tail : Bytes} {v : Option Int64}

theorem plainNumeral_ends (length : numeralLength false (text ++ tail) = text.length) (ends : Delimits tail) :
    plainNumeral (text ++ tail) = (numeralValue text).map (·, text.length) := by
  have quiet : ((((text ++ tail).drop text.length).head?).map isNameStart).getD false = false := by
    rw [List.drop_left]
    cases first : tail.head? with
    | none => rfl
    | some b => exact (byte_outside_word b (ends b first).1).2.2.2.2
  unfold plainNumeral
  rw [length]
  simp only [quiet, List.take_left, Bool.false_eq_true, if_false]

theorem plainNumeral_cut {w : Int64} {k : Nat} (read : plainNumeral text = some (w, k)) :
    ∃ word tail, text = word ++ tail ∧ k = word.length ∧ numeralValue word = some w ∧ Delimits tail := by
  unfold plainNumeral at read
  dsimp only at read
  split at read
  · cases read
  · rename_i quiet
    obtain ⟨value, found, same⟩ := Option.map_eq_some_iff.mp read
    cases same
    refine ⟨_, _, (List.take_append_drop (numeralLength false text) text).symm, ?_, found, ?_⟩
    · rw [List.length_take, Nat.min_eq_left (numeralLength_le false text)]
    · intro b first
      obtain ⟨digit, point⟩ := numeralLength_stops false text b first
      refine ⟨?_, point⟩
      rw [Option.mem_def.mp first] at quiet
      have name : isNameStart b = false := Bool.eq_false_of_not_eq_true quiet
      exact byte_of_neither b digit name

theorem numeral_plain (plain : ∀ mark rest, text = 0x30 :: mark :: rest → Suffix.isHexMark mark = false) :
    numeral text = plainNumeral text := by
  unfold numeral
  split
  · rename_i mark rest
    have none := plain mark rest rfl
    rw [if_neg (by simpa [Suffix.isHexMark] using none)]
  · rfl

theorem numeral_shaped (shaped : Shaped text) (filled : text ≠ []) (ends : Delimits tail) :
    numeral (text ++ tail) = plainNumeral (text ++ tail) := by
  refine numeral_plain (shaped.second filled fun b first => ?_)
  exact (byte_outside_word b (ends b first).1).2.2.2.1

theorem numeral_hex {mark : UInt8} {digits : Bytes} {n : Nat} (marked : Suffix.isHexMark mark = true)
    (number : Numeral 16 digits n) (ends : ∀ b ∈ tail.head?, Bytes.isHexDigit b = false) : numeral (0x30 :: mark :: (digits ++ tail)) =
      (if n < 2 ^ 64 then some (Int64.ofNat n) else none).map (·, (0x30 :: mark :: digits).length) := by
  have mark' : (mark = 0x78 || mark = 0x58) = true := by simpa [Suffix.isHexMark] using marked
  rw [numeral, if_pos mark']
  dsimp only
  rw [Lexer.takeWhile_stop number.hexDigits ends, ← readUInt64_numeral number, Option.map_map]
  congr 1
  funext u
  rw [Function.comp_apply, List.length_cons, List.length_cons, Nat.add_comm 2]

theorem numeral_literal (literal : Literal text v) (ends : Delimits tail) :
    numeral (text ++ tail) = v.map (·, text.length) := by
  have integer : ∀ {n : Nat}, Writes text n → text ≠ [] → (∀ b ∈ text, Bytes.isDigit b = true) →
      numeral (text ++ tail) = (if n < 2 ^ 64 then some (Int64.ofNat n) else none).map (·, text.length) := by
    intro n writes filled digits
    rw [numeral_shaped (shaped_of_digits digits) filled ends, plainNumeral_ends (numeralLength_integer digits ends) ends,
      numeralValue_integer writes digits]
  cases literal with
  | integer writes =>
    cases writes with
    | hex marked number => exact numeral_hex marked number ends.noHexDigit
    | octal number =>
      refine integer (.octal number) (List.cons_ne_nil _ _) ?_
      exact List.forall_mem_cons.mpr ⟨rfl, number.digits (by decide)⟩
    | decimal number lead => exact integer (.decimal number lead) number.ne_nil (number.digits (by decide))
  | pointed pointed =>
    have filled : text ≠ [] := by
      obtain ⟨-, -, -⟩ := pointed
      exact List.append_ne_nil_of_right_ne_nil _ (List.cons_ne_nil _ _)
    rw [numeral_shaped pointed.shaped filled ends, plainNumeral_ends (numeralLength_pointed pointed ends) ends,
      numeralValue_pointed pointed]

structure Hex (word tail : Bytes) : Prop where
  marked : ∃ mark digits, word = 0x30 :: mark :: digits ∧ Suffix.isHexMark mark = true ∧
    ∀ b ∈ digits, Bytes.isHexDigit b = true
  ends : ∀ b ∈ tail.head?, Bytes.isHexDigit b = false

theorem literal_of_numeral {w : Int64} {k : Nat} (read : numeral text = some (w, k)) :
    ∃ word tail, text = word ++ tail ∧ k = word.length ∧ Literal word (some w) ∧
      (Hex word tail ∨ (Shaped word ∧ Delimits tail)) := by
  have plain : plainNumeral text = some (w, k) → ∃ word tail, text = word ++ tail ∧ k = word.length ∧
      Literal word (some w) ∧ (Hex word tail ∨ (Shaped word ∧ Delimits tail)) := by
    intro read
    obtain ⟨word, tail, same, length, value, ends⟩ := plainNumeral_cut read
    obtain ⟨literal, shaped⟩ := literal_of_numeralValue value
    exact ⟨word, tail, same, length, literal, .inr ⟨shaped, ends⟩⟩
  unfold numeral at read
  split at read
  · rename_i mark rest
    split at read
    · rename_i marked
      have marked : Suffix.isHexMark mark = true := by simpa [Suffix.isHexMark] using marked
      obtain ⟨digits, tail, same, all, stops⟩ := Lexer.takeWhile_cut Bytes.isHexDigit rest
      subst same
      dsimp only at read
      rw [Lexer.takeWhile_stop all stops] at read
      obtain ⟨u, found, same⟩ := Option.map_eq_some_iff.mp read
      obtain ⟨n, number, fits, word⟩ := numeral_of_readUInt64 found
      cases same
      refine ⟨0x30 :: mark :: digits, tail, rfl, Nat.add_comm 2 _, ?_, .inl ⟨⟨mark, digits, rfl, marked, all⟩, stops⟩⟩
      have literal := Literal.integer (.hex marked number)
      rwa [if_pos fits, ← word] at literal
    · exact plain read
  · exact plain read

end Reading
end Expr
end DeviceTree
