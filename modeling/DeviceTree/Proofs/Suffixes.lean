import DeviceTree.Proofs.Literals

namespace DeviceTree

-- What may stand behind a byte of a numeral. A sign stands behind the mark of an exponent only.
def Joins (a b : UInt8) : Prop :=
  Bytes.isWord b = true ∨ b = 0x2e ∨ (Decimal.isSign b = true ∧ Decimal.isExponentMark a = true)

structure Piece (text : Bytes) : Prop where
  joined : text.IsChain Joins
  last : ∀ b ∈ text.getLast?, Decimal.isExponentMark b = false
  bytes : ∀ b ∈ text, Decimal.isExponentMark b = true ∨ Decimal.isSign b = true ∨ Bytes.isDigit b = true ∨ b = 0x2e

theorem Piece.tail {b : UInt8} {rest : Bytes} (piece : Piece (b :: rest)) : Piece rest where
  joined := piece.joined.tail
  last := by
    cases rest with
    | nil => exact fun c last => nomatch last
    | cons c more => exact List.getLast?_cons_cons (a := b) ▸ piece.last
  bytes := (List.forall_mem_cons.mp piece.bytes).2

theorem isChain_of_words {text : Bytes} (words : ∀ b ∈ text, Bytes.isWord b = true) : text.IsChain Joins := by
  induction text with
  | nil => exact .nil
  | cons b rest ih =>
    obtain ⟨-, others⟩ := List.forall_mem_cons.mp words
    cases rest with
    | nil => exact .singleton b
    | cons c more => exact List.isChain_cons_cons.mpr ⟨.inl (others c List.mem_cons_self), ih others⟩

theorem isChain_joins_append (front : Bytes) {back : Bytes} (one : front.IsChain Joins) (two : back.IsChain Joins)
    (first : ∀ b ∈ back.head?, Bytes.isWord b = true ∨ b = 0x2e) : (front ++ back).IsChain Joins := by
  refine List.isChain_append.mpr ⟨one, two, fun _ _ b here => ?_⟩
  exact (first b here).imp_right .inl

theorem not_mark_append {front back : Bytes} (one : ∀ b ∈ front.getLast?, Decimal.isExponentMark b = false)
    (two : ∀ b ∈ back.getLast?, Decimal.isExponentMark b = false) :
    ∀ b ∈ (front ++ back).getLast?, Decimal.isExponentMark b = false := by
  intro b last
  rw [List.getLast?_append, Option.mem_def, Option.or_eq_some_iff] at last
  exact last.elim (two b) fun both => one b both.2

section Digits

variable {digits : Bytes}

theorem joined_digits (all : ∀ b ∈ digits, Bytes.isDigit b = true) : digits.IsChain Joins :=
  isChain_of_words fun b member => (byte_of_digit b (all b member)).1

theorem last_digits (all : ∀ b ∈ digits, Bytes.isDigit b = true) :
    ∀ b ∈ digits.getLast?, Decimal.isExponentMark b = false :=
  fun b last => (byte_of_digit b (all b (List.mem_of_getLast? last))).2.1

theorem last_behind (front : Bytes) (filled : digits ≠ []) (all : ∀ b ∈ digits, Bytes.isDigit b = true) :
    ∀ b ∈ (front ++ digits).getLast?, Decimal.isExponentMark b = false := by
  rw [List.getLast?_append_of_ne_nil _ filled]
  exact last_digits all

end Digits

theorem point_joined {fraction : Bytes}
    (point : fraction = [] ∨ ∃ digits, fraction = 0x2e :: digits ∧ ∀ b ∈ digits, Bytes.isDigit b = true) :
    fraction.IsChain Joins ∧ ∀ b ∈ fraction.getLast?, Decimal.isExponentMark b = false := by
  rcases point with none | ⟨digits, same, all⟩
  · subst none
    exact ⟨.nil, fun b last => nomatch last⟩
  · subst same
    refine ⟨isChain_joins_append [0x2e] (.singleton _) (joined_digits all) fun b first => .inl ?_, fun b last => ?_⟩
    · exact (byte_of_digit b (all b (List.mem_of_head? first))).1
    · rcases List.mem_cons.mp (List.mem_of_getLast? last) with dot | digit
      · rw [dot]
        rfl
      · exact (byte_of_digit b (all b digit)).2.1

theorem Exponent.piece {text : Bytes} {e : Int} (exponent : Exponent text e) : Piece text where
  bytes b member := (exponent.bytes b member).imp_right (·.imp_right .inl)
  joined := by
    have digit {base n : Nat} {digits : Bytes} (number : Numeral base digits n) (small : base ≤ 10) (a : UInt8) :
        (a :: digits).IsChain Joins := by
      have all := number.digits small
      refine isChain_joins_append [a] (.singleton a) (joined_digits all) fun b first => .inl ?_
      exact (byte_of_digit b (all b (List.mem_of_head? first))).1
    cases exponent with
    | absent => exact .nil
    | plain marked number => exact digit number (by decide) _
    | plus marked number => exact List.isChain_cons_cons.mpr ⟨.inr (.inr ⟨rfl, marked⟩), digit number (by decide) _⟩
    | minus marked number => exact List.isChain_cons_cons.mpr ⟨.inr (.inr ⟨rfl, marked⟩), digit number (by decide) _⟩
  last := by
    cases exponent with
    | absent => exact fun b last => nomatch last
    | plain _ number => exact last_behind [_] number.ne_nil (number.digits (by decide))
    | plus _ number => exact last_behind [_, _] number.ne_nil (number.digits (by decide))
    | minus _ number => exact last_behind [_, _] number.ne_nil (number.digits (by decide))

theorem Shaped.piece {text : Bytes} (shaped : Shaped text) : Piece text := by
  refine ⟨?_, ?_, shaped.bytes⟩
  · obtain ⟨front, point, scale⟩ := shaped
    have fraction := point_joined point
    refine isChain_joins_append _ (joined_digits front) (isChain_joins_append _ fraction.1 scale.piece.joined ?_) ?_
    · exact fun b first => .inl ((byte_of_exponentMark b (scale.first b first)).1)
    · intro b first
      rw [List.head?_append, Option.mem_def, Option.or_eq_some_iff] at first
      rcases first with here | ⟨-, there⟩
      · rcases point with none | ⟨digits, same, -⟩
        · rw [none] at here
          cases here
        · rw [same] at here
          exact .inr (Option.some.inj here).symm
      · exact .inl ((byte_of_exponentMark b (scale.first b there)).1)
  · obtain ⟨front, point, scale⟩ := shaped
    exact not_mark_append (last_digits front) (not_mark_append (point_joined point).2 scale.piece.last)

namespace Suffix

-- A suffix that a numeral may have. A hexadecimal one takes no `f`, which is a digit there.
def Closes (text sfx : Bytes) : Prop :=
  sfx = [] ∨ Bytes.toLower sfx ∈ integral ∨ (Bytes.toLower sfx = utf8 "f" ∧ ∀ b ∈ text, isHexMark b = false)

structure Cut (text body sfx tail : Bytes) : Prop where
  parts : text = body ++ (sfx ++ tail)
  filled : body ≠ []
  shape : Shaped body ∨
    ∃ mark digits, body = 0x30 :: mark :: digits ∧ isHexMark mark = true ∧ ∀ b ∈ digits, Bytes.isHexDigit b = true
  suffix : sfx ≠ []
  closes : Closes body sfx
  ends : ∀ b ∈ tail.head?, Bytes.isWord b = false

def Stops (tail : Bytes) : Prop :=
  ∀ b ∈ tail.head?, Bytes.isDigit b = false ∧ Decimal.isExponentMark b = false ∧ b ≠ 0x2e

section Lengths

variable {text tail : Bytes}

theorem suffixLength_cut {allowed : List Bytes} {k : Nat} (found : suffixLength allowed text = some k) :
    ∃ sfx tail, text = sfx ++ tail ∧ k = sfx.length ∧ Bytes.toLower sfx ∈ allowed ∧
      ∀ b ∈ tail.head?, Bytes.isWord b = false := by
  obtain ⟨word, tail, same, all, stop⟩ := Lexer.takeWhile_cut Bytes.isWord text
  subst same
  unfold suffixLength at found
  dsimp only at found
  rw [Lexer.takeWhile_stop all stop] at found
  split at found
  · rename_i allowed
    exact ⟨word, tail, rfl, (Option.some.inj found).symm, List.contains_iff_mem.mp allowed, stop⟩
  · cases found

theorem suffixLength_word {allowed : List Bytes} {sfx : Bytes} (all : ∀ b ∈ sfx, Bytes.isWord b = true)
    (ends : ∀ b ∈ tail.head?, Bytes.isWord b = false) :
    suffixLength allowed (sfx ++ tail) = if Bytes.toLower sfx ∈ allowed then some sfx.length else none := by
  unfold suffixLength
  dsimp only
  rw [Lexer.takeWhile_stop all ends]
  simp only [List.contains_iff_mem]

theorem hexLength_cut {k : Nat} (found : hexLength text = some k) :
    ∃ mark digits tail, text = 0x30 :: mark :: (digits ++ tail) ∧ k = (0x30 :: mark :: digits).length ∧
      isHexMark mark = true ∧ ∀ b ∈ digits, Bytes.isHexDigit b = true := by
  unfold hexLength at found
  split at found
  · rename_i mark rest
    obtain ⟨digits, tail, same, all, stop⟩ := Lexer.takeWhile_cut Bytes.isHexDigit rest
    subst same
    dsimp only at found
    rw [Lexer.takeWhile_stop all stop] at found
    split at found
    · rename_i both
      have size := (Option.some.inj found).symm.trans (Nat.add_comm 2 _)
      exact ⟨mark, digits, tail, rfl, size, (Bool.and_eq_true_iff.mp both).1, all⟩
    · cases found
  · cases found

theorem exponentLength_cut (text : Bytes) :
    ∃ exponent tail e, text = exponent ++ tail ∧ exponentLength text = exponent.length ∧ Exponent exponent e := by
  have absent : ∀ {k : Nat}, k = 0 → ∃ exponent tail e, text = exponent ++ tail ∧ k = exponent.length ∧ Exponent exponent e :=
    fun none => ⟨[], text, 0, rfl, none, .absent⟩
  unfold exponentLength
  split
  · rename_i mark rest
    split
    · rename_i marked
      have marked : Decimal.isExponentMark mark = true := by simpa [Decimal.isExponentMark] using marked
      -- The digits behind the mark and the sign.
      have counted : ∀ (sign : Bytes) (behind : Bytes), rest = sign ++ behind →
          (∀ digits n, Numeral 10 digits n → ∃ e, Exponent (mark :: (sign ++ digits)) e) →
          ∃ exponent tail e, mark :: rest = exponent ++ tail ∧ (if (behind.takeWhile Bytes.isDigit).length = 0 then 0
            else 1 + sign.length + (behind.takeWhile Bytes.isDigit).length) = exponent.length ∧ Exponent exponent e := by
        intro sign behind same exponent
        obtain ⟨digits, tail, same', all, stop⟩ := Lexer.takeWhile_cut Bytes.isDigit behind
        subst same same'
        rw [Lexer.takeWhile_stop all stop]
        split
        · rename_i none
          exact absent rfl
        · rename_i some
          have filled : digits ≠ [] := fun none => some (none ▸ rfl)
          obtain ⟨n, number⟩ := Numeral.exists filled fun b member => Bytes.value_of_digit b (all b member)
          obtain ⟨e, scale⟩ := exponent digits n number
          refine ⟨_, tail, e, by simp, ?_, scale⟩
          simp only [List.length_cons, List.length_append]
          omega
      cases rest with
      | nil => exact absent rfl
      | cons s more =>
        dsimp only
        split
        · rename_i signed
          rw [← List.length_singleton (a := s)]
          refine counted [s] more rfl fun digits n number => ?_
          have sign : s = 0x2b ∨ s = 0x2d := by simpa using signed
          rcases sign with plus | minus
          · exact ⟨n, plus ▸ .plus marked number⟩
          · exact ⟨-n, minus ▸ .minus marked number⟩
        · exact counted [] (s :: more) rfl fun digits n number => ⟨n, .plain marked number⟩
    · exact absent rfl
  · exact absent rfl

theorem fractionLength_cut (text : Bytes) : ∃ fraction tail, text = fraction ++ tail ∧ fractionLength text = fraction.length ∧
    (fraction = [] ∨ ∃ digits, fraction = 0x2e :: digits ∧ ∀ b ∈ digits, Bytes.isDigit b = true) := by
  unfold fractionLength
  split
  · rename_i rest
    obtain ⟨digits, tail, same, all, stop⟩ := Lexer.takeWhile_cut Bytes.isDigit rest
    subst same
    rw [Lexer.takeWhile_stop all stop]
    exact ⟨0x2e :: digits, tail, rfl, Nat.add_comm 1 _, .inr ⟨digits, rfl, all⟩⟩
  · exact ⟨[], text, rfl, rfl, .inl rfl⟩

theorem decimalLength_cut (text : Bytes) :
    ∃ body tail, text = body ++ tail ∧ decimalLength text = body.length ∧ Shaped body := by
  obtain ⟨whole, rest, same, front, stop⟩ := Lexer.takeWhile_cut Bytes.isDigit text
  subst same
  obtain ⟨fraction, more, same, points, point⟩ := fractionLength_cut rest
  subst same
  obtain ⟨exponent, tail, e, same, scales, scale⟩ := exponentLength_cut more
  subst same
  refine ⟨whole ++ (fraction ++ exponent), tail, by simp only [List.append_assoc], ?_, .mk front point scale⟩
  unfold decimalLength
  dsimp only
  rw [Lexer.takeWhile_stop front stop, List.drop_left, points, ← List.append_assoc whole, ← List.length_append,
    List.drop_left, scales]
  simp only [List.length_append]
  omega

theorem exponentLength_stops {exponent : Bytes} {e : Int} (scale : Exponent exponent e) (stops : Stops tail) :
    exponentLength (exponent ++ tail) = exponent.length := by
  have test : ∀ {mark : UInt8}, Decimal.isExponentMark mark = true → (mark = 0x65 || mark = 0x45) = true := by
    intro mark marked
    simpa [Decimal.isExponentMark] using marked
  have digit : ∀ b ∈ tail.head?, Bytes.isDigit b = false := fun b first => (stops b first).1
  have filled : ∀ {digits : Bytes} {n : Nat}, Numeral 10 digits n → digits.length ≠ 0 :=
    fun number none => number.ne_nil (List.length_eq_zero_iff.mp none)
  have signed : ∀ {mark s : UInt8} {digits : Bytes} {n : Nat}, Decimal.isExponentMark mark = true →
      (s = 0x2b || s = 0x2d) = true → Numeral 10 digits n →
        exponentLength (mark :: s :: digits ++ tail) = (mark :: s :: digits).length := by
    intro mark s digits n marked sign number
    rw [List.cons_append, exponentLength.eq_def]
    dsimp only
    rw [if_pos (test marked), List.cons_append]
    simp only [sign, if_true]
    rw [Lexer.takeWhile_stop (number.digits (by decide)) digit, if_neg (filled number), List.length_cons, List.length_cons]
    omega
  cases scale with
  | absent =>
    cases tail with
    | nil => rfl
    | cons b rest =>
      obtain ⟨-, mark, -⟩ := stops b rfl
      have none : (b = 0x65 || b = 0x45) = false := by simpa [Decimal.isExponentMark] using mark
      rw [List.nil_append, exponentLength.eq_def]
      simp only [none, Bool.false_eq_true, if_false, List.length_nil]
  | @plain mark digits n marked number =>
    cases digits with
    | nil => exact absurd rfl number.ne_nil
    | cons c rest =>
      have all := number.digits (by decide)
      have first := all c List.mem_cons_self
      have unsigned : (c = 0x2b || c = 0x2d) = false := by grind
      rw [List.cons_append, exponentLength.eq_def]
      dsimp only
      rw [if_pos (test marked), List.cons_append]
      simp only [unsigned, Bool.false_eq_true, if_false]
      rw [← List.cons_append, Lexer.takeWhile_stop all digit, if_neg (filled number), List.length_cons (a := mark)]
      omega
  | plus marked number => exact signed marked rfl number
  | minus marked number => exact signed marked rfl number

theorem decimalLength_stops (shaped : Shaped text) (stops : Stops tail) : decimalLength (text ++ tail) = text.length := by
  obtain ⟨front, point, scale⟩ := shaped
  rename_i whole fraction exponent e
  have digit : ∀ b ∈ (exponent ++ tail).head?, Bytes.isDigit b = false := by
    intro b first
    rw [List.head?_append, Option.mem_def, Option.or_eq_some_iff] at first
    exact first.elim (scale.stops b) fun both => (stops b both.2).1
  have dot : fraction = [] → ∀ b ∈ (exponent ++ tail).head?, b ≠ 0x2e := by
    intro _ b first
    rw [List.head?_append, Option.mem_def, Option.or_eq_some_iff] at first
    exact first.elim (fun here => (byte_of_exponentMark b (scale.first b here)).2.2) fun both => (stops b both.2).2.2
  have points : (∀ b ∈ (fraction ++ (exponent ++ tail)).head?, Bytes.isDigit b = false) ∧
      fractionLength (fraction ++ (exponent ++ tail)) = fraction.length := by
    rcases point with none | ⟨digits, same, behind⟩
    · have plain := dot none
      rw [none, List.nil_append]
      refine ⟨digit, ?_⟩
      unfold fractionLength
      split
      · rename_i same
        exact absurd rfl (plain 0x2e (by rw [same]; rfl))
      · rfl
    · subst same
      refine ⟨fun b first => Option.some.inj first ▸ rfl, ?_⟩
      rw [List.cons_append, fractionLength, Lexer.takeWhile_stop behind digit]
      exact Nat.add_comm 1 _
  rw [List.append_assoc, List.append_assoc]
  unfold decimalLength
  dsimp only
  rw [Lexer.takeWhile_stop front points.1, List.drop_left, points.2, ← List.append_assoc whole, ← List.length_append,
    List.drop_left, exponentLength_stops scale stops]
  simp only [List.length_append]
  omega

end Lengths

theorem suffix_letters {sfx : Bytes} (allowed : Bytes.toLower sfx ∈ general) : ∀ b ∈ sfx,
    Bytes.isWord b = true ∧ Bytes.isDigit b = false ∧ Decimal.isExponentMark b = false ∧ Decimal.isSign b = false ∧ b ≠ 0x2e ∧
      isHexMark b = false := by
  have letters : ∀ word ∈ general, ∀ c ∈ word, c = 0x75 ∨ c = 0x6c ∨ c = 0x66 := by decide +kernel
  have kinds : ∀ b : UInt8, Bytes.lower b = 0x75 ∨ Bytes.lower b = 0x6c ∨ Bytes.lower b = 0x66 → Bytes.isWord b = true ∧
      Bytes.isDigit b = false ∧ Decimal.isExponentMark b = false ∧ Decimal.isSign b = false ∧ b ≠ 0x2e ∧ isHexMark b = false :=
    forall_byte (by decide +kernel)
  intro b member
  exact kinds b (letters _ allowed _ (List.mem_map_of_mem member))

theorem integral_letters {sfx : Bytes} (allowed : Bytes.toLower sfx ∈ integral) : ∀ b ∈ sfx, Bytes.isHexDigit b = false := by
  have letters : ∀ word ∈ integral, ∀ c ∈ word, c = 0x75 ∨ c = 0x6c := by decide +kernel
  have kinds : ∀ b : UInt8, Bytes.lower b = 0x75 ∨ Bytes.lower b = 0x6c → Bytes.isHexDigit b = false := by
    grind [Bytes.lower]
  intro b member
  exact kinds b (letters _ allowed _ (List.mem_map_of_mem member))

theorem suffix_filled {allowed : List Bytes} {sfx : Bytes} (words : [] ∉ allowed) (member : Bytes.toLower sfx ∈ allowed) :
    sfx ≠ [] := by
  intro none
  subst none
  exact words member

theorem suffix_first {allowed : List Bytes} {sfx : Bytes} (words : [] ∉ allowed) (member : Bytes.toLower sfx ∈ allowed)
    (tail : Bytes) : ∀ b ∈ (sfx ++ tail).head?, b ∈ sfx := by
  intro b first
  rw [List.head?_append_of_ne_nil _ (suffix_filled words member)] at first
  exact List.mem_of_head? first

theorem Closes.general {text sfx : Bytes} (closes : Closes text sfx) (filled : sfx ≠ []) : Bytes.toLower sfx ∈ general := by
  rcases closes with none | whole | ⟨single, -⟩
  · exact absurd none filled
  · exact List.mem_append_left _ whole
  · exact List.mem_append_right _ (List.mem_singleton.mpr single)

theorem Closes.integral {mark : UInt8} {digits sfx : Bytes} (closes : Closes (0x30 :: mark :: digits) sfx) (filled : sfx ≠ [])
    (marked : isHexMark mark = true) : Bytes.toLower sfx ∈ integral := by
  rcases closes with none | whole | ⟨-, plain⟩
  · exact absurd none filled
  · exact whole
  · rw [plain mark (List.mem_cons_of_mem _ List.mem_cons_self)] at marked
    cases marked

theorem closes_shaped {text sfx : Bytes} (shaped : Shaped text) (allowed : Bytes.toLower sfx ∈ Suffix.general) :
    Closes text sfx := by
  rcases List.mem_append.mp allowed with whole | single
  · exact .inr (.inl whole)
  · exact .inr (.inr ⟨List.mem_singleton.mp single, shaped.noHexMark⟩)

theorem split_cut {b : UInt8} {rest : Bytes} {n k : Nat} (digit : Bytes.isDigit b = true)
    (found : split? (b :: rest) = some (n, k)) :
    ∃ body sfx tail, Cut (b :: rest) body sfx tail ∧ n = body.length ∧ k = sfx.length := by
  unfold split? at found
  dsimp only at found
  split at found
  · rename_i pair hexadecimal
    cases found
    obtain ⟨n, length, suffix⟩ := Option.bind_eq_some_iff.mp hexadecimal
    obtain ⟨k, allowed, same⟩ := Option.map_eq_some_iff.mp suffix
    cases same
    obtain ⟨mark, digits, behind, parts, length, marked, all⟩ := hexLength_cut length
    have parts : b :: rest = (0x30 :: mark :: digits) ++ behind := parts
    rw [parts, length, List.drop_left] at allowed
    obtain ⟨sfx, tail, same, size, known, ends⟩ := suffixLength_cut allowed
    subst same
    refine ⟨_, sfx, tail, ⟨parts, List.cons_ne_nil _ _, .inr ⟨mark, digits, rfl, marked, all⟩, ?_, ?_, ends⟩, length, size⟩
    · exact suffix_filled (by decide) known
    · exact .inr (.inl known)
  · obtain ⟨k, allowed, same⟩ := Option.map_eq_some_iff.mp found
    cases same
    obtain ⟨body, behind, parts, length, shaped⟩ := decimalLength_cut (b :: rest)
    rw [parts, ← parts, length, parts, List.drop_left] at allowed
    obtain ⟨sfx, tail, same, size, known, ends⟩ := suffixLength_cut allowed
    subst same
    refine ⟨body, sfx, tail, ⟨parts, ?_, .inl shaped, ?_, closes_shaped shaped known, ends⟩, length, size⟩
    · intro none
      have positive : decimalLength (b :: rest) ≠ 0 := by
        unfold decimalLength
        simp only [List.takeWhile_cons_of_pos digit, List.length_cons]
        omega
      exact positive (length.trans (none ▸ rfl))
    · exact suffix_filled (by decide) known

def followers (inWord : Bool) : Bytes → Bytes
  | [] => []
  | b :: rest =>
    if !inWord && Bytes.isDigit b then
      match split? (b :: rest) with
      | some (body, tail) =>
        (rest.drop (body + tail - 1)).take 1 ++ followers true (rest.drop (body + tail - 1))
      | none => followers (Bytes.isWord b) rest
    else followers (Bytes.isWord b) rest
termination_by text => text.length
decreasing_by all_goals (simp only [List.length_drop, List.length_cons]; omega)

section Steps

variable {inWord : Bool} {b : UInt8} {rest text : Bytes}

def Passes (inWord : Bool) (b : UInt8) (rest : Bytes) : Prop :=
  stripAfter inWord (b :: rest) = b :: stripAfter (Bytes.isWord b) rest ∧
    followers inWord (b :: rest) = followers (Bytes.isWord b) rest

theorem passes_of_word (b : UInt8) (rest : Bytes) : Passes true b rest := by
  unfold Passes
  rw [stripAfter, followers]
  exact ⟨rfl, rfl⟩

theorem passes_of_other (inWord : Bool) (other : Bytes.isDigit b = false) (rest : Bytes) : Passes inWord b rest := by
  unfold Passes
  rw [stripAfter, followers, other, Bool.and_false]
  exact ⟨rfl, rfl⟩

theorem passes_of_split (none : split? (b :: rest) = none) (inWord : Bool) : Passes inWord b rest := by
  unfold Passes
  rw [stripAfter, followers, none]
  exact ⟨ite_self _, ite_self _⟩

theorem cut_of_split {body sfx tail : Bytes} (digit : Bytes.isDigit b = true) (parts : b :: rest = body ++ (sfx ++ tail))
    (filled : body ≠ []) (found : split? (b :: rest) = some (body.length, sfx.length)) :
    stripAfter false (b :: rest) = body ++ stripAfter true tail ∧
      followers false (b :: rest) = tail.take 1 ++ followers true tail := by
  have behind : rest.drop (body.length + sfx.length - 1) = tail := by
    obtain ⟨c, more, same⟩ := List.exists_cons_of_ne_nil filled
    subst same
    obtain ⟨-, same⟩ := List.cons.inj (parts.trans (List.cons_append ..))
    rw [same, List.length_cons, Nat.add_right_comm, Nat.add_sub_cancel, ← List.append_assoc, ← List.length_append, List.drop_left]
  have front : (b :: rest).take body.length = body := by rw [parts, List.take_left]
  rw [stripAfter, followers, digit]
  simp only [Bool.not_false, Bool.and_self, if_true, found, behind, front, and_self]

-- Each byte is passed, or a suffix is cut behind the numeral that it begins.
theorem strip_step (inWord : Bool) (b : UInt8) (rest : Bytes) : Passes inWord b rest ∨
    ∃ body sfx tail, Cut (b :: rest) body sfx tail ∧ stripAfter inWord (b :: rest) = body ++ stripAfter true tail ∧
      followers inWord (b :: rest) = tail.take 1 ++ followers true tail := by
  cases inWord with
  | true => exact .inl (passes_of_word b rest)
  | false =>
    by_cases digit : Bytes.isDigit b = true
    · cases found : split? (b :: rest) with
      | none => exact .inl (passes_of_split found false)
      | some pair =>
        obtain ⟨n, k⟩ := pair
        obtain ⟨body, sfx, tail, cut, size, length⟩ := split_cut digit found
        subst size length
        exact .inr ⟨body, sfx, tail, cut, cut_of_split digit cut.parts cut.filled found⟩
    · exact .inl (passes_of_other false (Bool.eq_false_of_not_eq_true digit) rest)

theorem head_stripAfter (inWord : Bool) (text : Bytes) : (stripAfter inWord text).head? = text.head? := by
  cases text with
  | nil => rw [stripAfter]
  | cons b rest =>
    rcases strip_step inWord b rest with pass | ⟨body, sfx, tail, cut, stripped, -⟩
    · rw [pass.1]
      rfl
    · rw [stripped, cut.parts, List.head?_append_of_ne_nil _ cut.filled, List.head?_append_of_ne_nil _ cut.filled]

theorem strip_cons {left source : Bytes} (stripped : stripAfter inWord source = b :: left) : ∃ rest, source = b :: rest := by
  have head := head_stripAfter inWord source
  rw [stripped] at head
  exact List.head?_eq_some_iff.mp head.symm

-- Only a digit is seen in another light inside a word.
theorem strip_fresh (stops : ∀ b ∈ text.head?, Bytes.isDigit b = false) (inWord : Bool) :
    stripAfter inWord text = stripAfter false text ∧ followers inWord text = followers false text := by
  cases text with
  | nil => exact ⟨by rw [stripAfter, stripAfter], by rw [followers, followers]⟩
  | cons b rest =>
    have one := passes_of_other inWord (stops b rfl) rest
    have two := passes_of_other false (stops b rfl) rest
    exact ⟨one.1.trans two.1.symm, one.2.trans two.2.symm⟩

theorem strip_words {word : Bytes} (all : ∀ b ∈ word, Bytes.isWord b = true) (tail : Bytes) :
    stripAfter true (word ++ tail) = word ++ stripAfter true tail ∧ followers true (word ++ tail) = followers true tail := by
  induction word with
  | nil => exact ⟨rfl, rfl⟩
  | cons b rest ih =>
    obtain ⟨first, others⟩ := List.forall_mem_cons.mp all
    have pass := passes_of_word b (rest ++ tail)
    unfold Passes at pass
    rw [first, (ih others).1, (ih others).2] at pass
    exact pass

theorem strip_others (word : Bytes) (others : ∀ b ∈ word, Bytes.isWord b = false) (tail : Bytes) :
    stripAfter false (word ++ tail) = word ++ stripAfter false tail ∧ followers false (word ++ tail) = followers false tail := by
  induction word with
  | nil => exact ⟨rfl, rfl⟩
  | cons b rest ih =>
    obtain ⟨first, later⟩ := List.forall_mem_cons.mp others
    have pass := passes_of_other false (byte_outside_word b first).1 (rest ++ tail)
    unfold Passes at pass
    rw [first, (ih later).1, (ih later).2] at pass
    exact pass

end Steps

section Pieces

variable {text body sfx tail : Bytes}

theorem Cut.joined (cut : Cut text body sfx tail) : body.IsChain Joins := by
  rcases cut.shape with shaped | ⟨mark, digits, same, marked, all⟩
  · exact shaped.piece.joined
  · subst same
    exact isChain_of_words (List.forall_mem_cons.mpr ⟨rfl, hex_words marked all⟩)

theorem Cut.letters (cut : Cut text body sfx tail) : ∀ b ∈ sfx, Bytes.isWord b = true ∧ Bytes.isDigit b = false ∧
    Decimal.isExponentMark b = false ∧ Decimal.isSign b = false ∧ b ≠ 0x2e ∧ isHexMark b = false :=
  suffix_letters (cut.closes.general cut.suffix)

theorem joined_stops {front back : Bytes} {c : UInt8} (joined : (front ++ c :: back).IsChain Joins) (filled : front ≠ [])
    (last : ∀ a ∈ front.getLast?, Decimal.isExponentMark a = false) (word : Bytes.isWord c = false) : c = 0x2e := by
  obtain ⟨a, here⟩ := List.getLast?_isSome.mpr filled |> Option.isSome_iff_exists.mp
  have joins := (List.isChain_append.mp joined).2.2 a here c rfl
  rcases joins with inWord | point | ⟨-, mark⟩
  · rw [word] at inWord
    cases inWord
  · exact point
  · rw [last a here] at mark
    cases mark

theorem piece_not_cut {b : UInt8} {rest behind : Bytes} (piece : Piece (b :: rest)) (ends : Delimits behind) :
    ¬ Cut (b :: rest ++ behind) body sfx tail := by
  intro cut
  obtain ⟨c, more, letter⟩ := List.exists_cons_of_ne_nil cut.suffix
  have kind := cut.letters c (letter ▸ List.mem_cons_self)
  have clash : behind ≠ sfx ++ tail := by
    intro same
    have word := (ends c (by rw [same, letter]; rfl)).1
    rw [kind.1] at word
    cases word
  rcases List.append_eq_append_iff.mp cut.parts with ⟨extra, longer, same⟩ | ⟨extra, shorter, same⟩
  · cases extra with
    | nil => exact clash same
    | cons d more =>
      have next := ends d (by rw [same]; rfl)
      exact next.2 (joined_stops (longer ▸ cut.joined) (List.cons_ne_nil _ _) piece.last next.1)
  · cases extra with
    | nil => exact clash same.symm
    | cons d more =>
      rw [letter] at same
      cases (List.cons.inj same).1
      have inside := piece.bytes c (by rw [shorter]; simp)
      simp [kind] at inside

theorem strip_piece {behind : Bytes} (piece : Piece text) (ends : Delimits behind) (inWord : Bool) :
    stripAfter inWord (text ++ behind) = text ++ stripAfter false behind ∧
      followers inWord (text ++ behind) = followers false behind := by
  induction text generalizing inWord with
  | nil =>
    exact strip_fresh ends.noDigit inWord
  | cons b rest ih =>
    rcases strip_step inWord b (rest ++ behind) with pass | ⟨_, _, _, cut, -⟩
    · unfold Passes at pass
      obtain ⟨left, follow⟩ := ih piece.tail (Bytes.isWord b)
      rw [left, follow] at pass
      exact pass
    · exact absurd cut (piece_not_cut piece ends)

theorem Cut.rest (cut : Cut text body sfx tail) :
    stripAfter true tail = stripAfter false tail ∧ followers true tail = followers false tail := by
  refine strip_fresh (fun b first => ?_) true
  exact (byte_outside_word b (cut.ends b first)).1

theorem Cut.among (cut : Cut text body sfx tail) {inWord : Bool}
    (follow : followers inWord text = tail.take 1 ++ followers true tail) :
    ∀ b ∈ followers false tail, b ∈ followers inWord text := by
  intro b member
  rw [follow, cut.rest.2]
  exact List.mem_append_right _ member

-- What is left begins with the numeral that was cut, if it begins with no longer one and with no shorter one.
theorem Cut.meets {source left : Bytes} (cut : Cut source body sfx tail) (same : text ++ left = body ++ stripAfter true tail)
    (longer : ∀ c others, body = text ++ c :: others → left.head? = some c → False)
    (shorter : ∀ c others, text = body ++ c :: others → tail.head? = some c → False) :
    source = text ++ (sfx ++ tail) ∧ body = text ∧ left = stripAfter false tail := by
  have whole : body = text → left = stripAfter true tail →
      source = text ++ (sfx ++ tail) ∧ body = text ∧ left = stripAfter false tail :=
    fun equal remains => ⟨equal ▸ cut.parts, equal, remains.trans cut.rest.1⟩
  rcases List.append_eq_append_iff.mp same with ⟨extra, parts, remains⟩ | ⟨extra, parts, remains⟩
  · cases extra with
    | nil => exact whole (parts.trans (List.append_nil _)) remains
    | cons c others => exact (longer c others parts (by rw [remains]; rfl)).elim
  · cases extra with
    | nil => exact whole (parts.trans (List.append_nil _)).symm remains.symm
    | cons c others =>
      obtain ⟨behind, first⟩ := strip_cons remains
      exact (shorter c others parts (by rw [first]; rfl)).elim

theorem Cut.shorter (cut : Cut text body sfx tail) : tail.length < text.length := by
  have filled := List.length_pos_iff.mpr cut.filled
  rw [cut.parts, List.length_append, List.length_append]
  omega

theorem Cut.unquoted (cut : Cut text body sfx tail) : 0x27 ∉ body := by
  intro member
  rcases cut.shape with shaped | ⟨mark, digits, same, marked, all⟩
  · have kind := shaped.bytes 0x27 member
    revert kind
    decide
  · subst same
    have words : ∀ b ∈ 0x30 :: mark :: digits, Bytes.isWord b = true :=
      List.forall_mem_cons.mpr ⟨rfl, hex_words marked all⟩
    exact absurd (words _ member) (by decide)

theorem strip_induction {motive : Bool → Bytes → Prop} (nil : ∀ inWord, motive inWord [])
    (pass : ∀ inWord b rest, stripAfter inWord (b :: rest) = b :: stripAfter (Bytes.isWord b) rest →
      motive (Bytes.isWord b) rest → motive inWord (b :: rest))
    (cut : ∀ inWord text body sfx tail, Cut text body sfx tail → stripAfter inWord text = body ++ stripAfter true tail →
      motive true tail → motive inWord text) (inWord : Bool) (text : Bytes) : motive inWord text := by
  induction size : text.length using Nat.strongRecOn generalizing text inWord with
  | ind k ih =>
    subst size
    cases text with
    | nil => exact nil inWord
    | cons b rest =>
      rcases strip_step inWord b rest with passed | ⟨body, sfx, tail, parts, stripped, -⟩
      · exact pass inWord b rest passed.1 (ih _ (Nat.lt_succ_self _) _ rest rfl)
      · exact cut inWord _ body sfx tail parts stripped (ih _ parts.shorter _ tail rfl)

theorem mem_strip {b : UInt8} (outside : Bytes.isWord b = false) (inWord : Bool) (member : b ∈ text) :
    b ∈ stripAfter inWord text := by
  induction inWord, text using strip_induction with
  | nil inWord => cases member
  | pass inWord c rest stripped ih =>
    rw [stripped]
    rcases List.mem_cons.mp member with rfl | later
    · exact List.mem_cons_self
    · exact List.mem_cons_of_mem _ (ih later)
  | cut inWord text body sfx tail cut stripped ih =>
    rw [stripped]
    rw [cut.parts] at member
    rcases List.mem_append.mp member with front | behind
    · exact List.mem_append_left _ front
    rcases List.mem_append.mp behind with suffix | later
    · exact absurd ((cut.letters b suffix).1.symm.trans outside) (by decide)
    · exact List.mem_append_right _ (ih later)

-- A numeral at the front of what is left was there before, and a suffix behind it at most was cut.
theorem piece_written {text left source : Bytes} {inWord : Bool} (piece : Piece text) (ends : Delimits left)
    (stripped : stripAfter inWord source = text ++ left) (clean : ∀ b ∈ followers inWord source, b ≠ 0x2e) :
    ∃ sfx rest, source = text ++ (sfx ++ rest) ∧ (sfx = [] ∨ Bytes.toLower sfx ∈ general) ∧ left = stripAfter false rest ∧
      ∀ b ∈ followers false rest, b ∈ followers inWord source := by
  induction text generalizing inWord source with
  | nil =>
    have fresh : ∀ b ∈ source.head?, Bytes.isDigit b = false := by
      intro b first
      rw [← head_stripAfter inWord, stripped] at first
      exact ends.noDigit b first
    obtain ⟨same, follow⟩ := strip_fresh fresh inWord
    exact ⟨[], source, rfl, .inl rfl, stripped.symm.trans same, fun b member => follow ▸ member⟩
  | cons b more ih =>
    obtain ⟨rest, same⟩ := strip_cons stripped
    subst same
    rcases strip_step inWord b rest with pass | ⟨body, sfx, tail, cut, left', follow⟩
    · rw [pass.1, List.cons_append] at stripped
      rw [pass.2] at clean ⊢
      obtain ⟨sfx, behind, same, closes, remains, among⟩ := ih piece.tail (List.cons.inj stripped).2 clean
      exact ⟨sfx, behind, congrArg (b :: ·) same, closes, remains, among⟩
    · rw [stripped] at left'
      have longer : ∀ c others, body = b :: more ++ c :: others → left.head? = some c → False := by
        intro c others parts first
        obtain ⟨word, point⟩ := ends c first
        exact point (joined_stops (parts ▸ cut.joined) (List.cons_ne_nil _ _) piece.last word)
      have shorter : ∀ c others, b :: more = body ++ c :: others → tail.head? = some c → False := by
        intro c others parts first
        have last : ∀ a ∈ body.getLast?, Decimal.isExponentMark a = false := by
          rcases cut.shape with shaped | ⟨mark, digits, hex, marked, -⟩
          · exact shaped.piece.last
          · have inside := piece.bytes mark (by rw [parts, hex]; simp)
            rw [byte_of_decimal mark inside] at marked
            cases marked
        refine clean c ?_ (joined_stops (parts ▸ piece.joined) cut.filled last (cut.ends c first))
        rw [follow, List.take_one, first]
        exact List.mem_append_left _ List.mem_cons_self
      obtain ⟨parts, -, remains⟩ := cut.meets left' longer shorter
      exact ⟨sfx, tail, parts, .inr (cut.closes.general cut.suffix), remains, cut.among follow⟩

end Pieces

theorem words_written {text left source : Bytes} (all : ∀ b ∈ text, Bytes.isWord b = true)
    (stripped : stripAfter true source = text ++ left) :
    ∃ rest, source = text ++ rest ∧ left = stripAfter true rest ∧ followers true source = followers true rest := by
  induction text generalizing source with
  | nil => exact ⟨source, rfl, stripped.symm, rfl⟩
  | cons b more ih =>
    obtain ⟨first, others⟩ := List.forall_mem_cons.mp all
    obtain ⟨rest, same⟩ := strip_cons stripped
    subst same
    have pass := passes_of_word b rest
    unfold Passes at pass
    rw [first] at pass
    rw [pass.1, List.cons_append] at stripped
    obtain ⟨behind, same, remains, follow⟩ := ih others (List.cons.inj stripped).2
    exact ⟨behind, congrArg (b :: ·) same, remains, pass.2.trans follow⟩

theorem hex_written {text left source : Bytes} (hex : Expr.Hex text left) (stripped : stripAfter false source = text ++ left) :
    ∃ sfx rest, source = text ++ (sfx ++ rest) ∧ Closes text sfx ∧ left = stripAfter false rest ∧
      ∀ b ∈ followers false rest, b ∈ followers false source := by
  obtain ⟨⟨mark, digits, same, marked, all⟩, ends⟩ := hex
  subst same
  have words := hex_words marked all
  have digit : ∀ b : UInt8, Bytes.isHexDigit b = false → Bytes.isDigit b = false := by grind
  obtain ⟨rest, same⟩ := strip_cons stripped
  subst same
  rcases strip_step false 0x30 rest with pass | ⟨body, sfx, tail, cut, left', follow⟩
  · rw [pass.1, List.cons_append] at stripped
    obtain ⟨behind, same, remains, follow⟩ := words_written words (List.cons.inj stripped).2
    have fresh : ∀ b ∈ behind.head?, Bytes.isDigit b = false := by
      intro b first
      rw [← head_stripAfter true, ← remains] at first
      exact digit b (ends b first)
    obtain ⟨again, followed⟩ := strip_fresh fresh true
    refine ⟨[], behind, congrArg (0x30 :: ·) same, .inl rfl, remains.trans again, fun b member => ?_⟩
    rw [pass.2, ← followed] at *
    exact follow ▸ member
  · rw [stripped] at left'
    have longer : ∀ c others, body = 0x30 :: mark :: digits ++ c :: others → left.head? = some c → False := by
      intro c others parts first
      rcases cut.shape with shaped | ⟨mark', digits', hex, -, all'⟩
      · rw [shaped.noHexMark mark (by rw [parts]; simp)] at marked
        cases marked
      · rw [parts, List.cons_append, List.cons_append] at hex
        have inside := all' c (by rw [← (List.cons.inj (List.cons.inj hex).2).2]; simp)
        rw [ends c first] at inside
        cases inside
    have shorter : ∀ c others, 0x30 :: mark :: digits = body ++ c :: others → tail.head? = some c → False := by
      intro c others parts first
      have word := cut.ends c first
      obtain ⟨d, more, front⟩ := List.exists_cons_of_ne_nil cut.filled
      rw [front, List.cons_append] at parts
      rw [words c (by rw [(List.cons.inj parts).2]; simp)] at word
      cases word
    obtain ⟨parts, same, remains⟩ := cut.meets left' longer shorter
    exact ⟨sfx, tail, parts, same ▸ cut.closes, remains, cut.among follow⟩

section Writing

variable {text sfx tail : Bytes}

theorem split_shaped (shaped : Shaped text) (filled : text ≠ []) (allowed : Bytes.toLower sfx ∈ general)
    (ends : ∀ b ∈ tail.head?, Bytes.isWord b = false) : split? (text ++ (sfx ++ tail)) = some (text.length, sfx.length) := by
  have letters := suffix_letters allowed
  have first := suffix_first (by decide) allowed tail
  have none : hexLength (text ++ (sfx ++ tail)) = none := by
    have second := shaped.second filled fun b here => (letters b (first b here)).2.2.2.2.2
    unfold hexLength
    split
    · rename_i mark rest same
      rw [second mark rest same]
      rfl
    · rfl
  have stops : Stops (sfx ++ tail) := by
    intro b here
    obtain ⟨-, digit, mark, -, point, -⟩ := letters b (first b here)
    exact ⟨digit, mark, point⟩
  unfold split?
  rw [none]
  dsimp only [Option.bind_none]
  rw [decimalLength_stops shaped stops, List.drop_left, suffixLength_word (fun b member => (letters b member).1) ends,
    if_pos allowed]
  rfl

section Hex

variable {mark : UInt8} {digits : Bytes} (marked : isHexMark mark = true) (filled : digits ≠ [])
  (all : ∀ b ∈ digits, Bytes.isHexDigit b = true)

include marked filled all

theorem hexLength_hex (ends : ∀ b ∈ tail.head?, Bytes.isHexDigit b = false) :
    hexLength (0x30 :: mark :: (digits ++ tail)) = some (0x30 :: mark :: digits).length := by
  rw [hexLength, Lexer.takeWhile_stop all ends, marked, List.isEmpty_eq_false_iff.mpr filled]
  exact congrArg some (Nat.add_comm 2 _)

theorem split_hex (allowed : Bytes.toLower sfx ∈ integral) (ends : ∀ b ∈ tail.head?, Bytes.isWord b = false) :
    split? (0x30 :: mark :: digits ++ (sfx ++ tail)) = some ((0x30 :: mark :: digits).length, sfx.length) := by
  have letters := suffix_letters (List.mem_append_left _ allowed)
  have stops : ∀ b ∈ (sfx ++ tail).head?, Bytes.isHexDigit b = false :=
    fun b here => integral_letters allowed b (suffix_first (by decide) allowed tail b here)
  unfold split?
  rw [List.cons_append, List.cons_append, hexLength_hex marked filled all stops, Option.bind_some, ← List.cons_append,
    ← List.cons_append, List.drop_left, suffixLength_word (fun b member => (letters b member).1) ends, if_pos allowed]
  rfl

theorem split_bare_hex (ends : Delimits tail) : split? (0x30 :: mark :: digits ++ tail) = none := by
  have words := hex_words marked all
  have bare : suffixLength integral tail = none := by
    have absent : Bytes.toLower [] ∉ integral := by decide
    have word : suffixLength integral ([] ++ tail) = _ := suffixLength_word (List.forall_mem_nil _) ends.noWord
    exact word.trans (if_neg absent)
  have zero : Shaped [0x30] := shaped_of_digits (List.forall_mem_singleton.mpr rfl)
  have stop : Stops (mark :: digits ++ tail) := by
    intro b first
    cases first
    exact (byte_of_hexMark mark marked).2
  have noSuffix : Bytes.toLower (mark :: digits) ∉ general := by
    intro allowed
    have letter := (suffix_letters allowed mark List.mem_cons_self).2.2.2.2.2
    rw [marked] at letter
    cases letter
  unfold split?
  rw [List.cons_append, List.cons_append, hexLength_hex marked filled all ends.noHexDigit, Option.bind_some, ← List.cons_append,
    ← List.cons_append, List.drop_left, bare]
  dsimp only [Option.map_none]
  rw [show 0x30 :: mark :: digits ++ tail = [0x30] ++ (mark :: digits ++ tail) from rfl, decimalLength_stops zero stop,
    List.drop_left, suffixLength_word words ends.noWord, if_neg noSuffix]
  rfl

end Hex

def Leaves (source text tail : Bytes) : Prop :=
  stripAfter false source = text ++ stripAfter false tail ∧
    ∀ b ∈ followers false source, b ∈ tail.head? ∨ b ∈ followers false tail

theorem leaves_of_split {b : UInt8} {rest : Bytes} (digit : Bytes.isDigit b = true) (front : text = b :: rest)
    (found : split? (text ++ (sfx ++ tail)) = some (text.length, sfx.length)) (ends : Delimits tail) :
    Leaves (text ++ (sfx ++ tail)) text tail := by
  subst front
  obtain ⟨left, follow⟩ := cut_of_split digit rfl (List.cons_ne_nil b rest) found
  obtain ⟨fresh, follows⟩ := strip_fresh ends.noDigit true
  unfold Leaves
  rw [← fresh, ← follows]
  refine ⟨left, fun c member => ?_⟩
  have member : c ∈ tail.take 1 ++ followers true tail := follow ▸ member
  rw [List.take_one, List.mem_append, Option.mem_toList] at member
  exact member

theorem leaves_hex {mark : UInt8} {digits : Bytes} (marked : isHexMark mark = true) (filled : digits ≠ [])
    (all : ∀ b ∈ digits, Bytes.isHexDigit b = true) (closes : Closes (0x30 :: mark :: digits) sfx) (ends : Delimits tail) :
    Leaves (0x30 :: mark :: digits ++ (sfx ++ tail)) (0x30 :: mark :: digits) tail := by
  by_cases bare : sfx = []
  · subst bare
    have pass := passes_of_split (split_bare_hex marked filled all ends) false
    obtain ⟨left, follow⟩ := strip_words (hex_words marked all) tail
    obtain ⟨fresh, follows⟩ := strip_fresh ends.noDigit true
    refine ⟨?_, fun c member => .inr ?_⟩
    · rw [← fresh]
      exact pass.1.trans (congrArg (0x30 :: ·) left)
    · rw [← follows, ← follow]
      exact pass.2 ▸ member
  · have found := split_hex marked filled all (closes.integral bare marked) ends.noWord
    exact leaves_of_split rfl rfl found ends

theorem leaves_shaped (shaped : Shaped text) {b : UInt8} {rest : Bytes} (front : text = b :: rest)
    (digit : Bytes.isDigit b = true) (closes : sfx = [] ∨ Bytes.toLower sfx ∈ general) (ends : Delimits tail) :
    Leaves (text ++ (sfx ++ tail)) text tail := by
  rcases closes with bare | allowed
  · subst bare
    obtain ⟨left, follow⟩ := strip_piece shaped.piece ends false
    exact ⟨left, fun c member => .inr (follow ▸ member)⟩
  · have filled : text ≠ [] := front ▸ List.cons_ne_nil b rest
    exact leaves_of_split digit front (split_shaped shaped filled allowed ends.noWord) ends

end Writing

theorem leaves_literal {text sfx tail : Bytes} {v : Option Int64} (literal : Literal text v) (closes : Closes text sfx)
    (ends : Delimits tail) : Leaves (text ++ (sfx ++ tail)) text tail := by
  have general : sfx = [] ∨ Bytes.toLower sfx ∈ general :=
    (Classical.em (sfx = [])).imp_right closes.general
  have integer : text ≠ [] → (∀ b ∈ text, Bytes.isDigit b = true) → Leaves (text ++ (sfx ++ tail)) text tail := by
    intro filled all
    obtain ⟨b, rest, front, digit⟩ := first_digit filled all
    exact leaves_shaped (shaped_of_digits all) front digit general ends
  cases literal with
  | integer writes =>
    cases writes with
    | hex marked number => exact leaves_hex marked number.ne_nil number.hexDigits closes ends
    | octal number => exact integer (List.cons_ne_nil _ _) (List.forall_mem_cons.mpr ⟨rfl, number.digits (by decide)⟩)
    | decimal number => exact integer number.ne_nil (number.digits (by decide))
  | pointed pointed =>
    have shaped := pointed.shaped
    obtain ⟨front, number, scale⟩ := pointed
    rename_i whole fraction exponent n e
    cases whole with
    | cons b rest => exact leaves_shaped shaped rfl (front b List.mem_cons_self) general ends
    | nil =>
      -- The point in front is passed, and the digits behind it begin a word of their own.
      have all := number.digits (by decide)
      obtain ⟨b, rest, same, digit⟩ := first_digit number.ne_nil all
      rw [List.nil_append] at same
      have behind : Shaped (fraction ++ exponent) := .mk all (.inl rfl) scale
      have split : fraction ++ exponent = b :: (rest ++ exponent) := by rw [same, List.cons_append]
      obtain ⟨left, among⟩ := leaves_shaped behind split digit general ends
      have pass := passes_of_other false (b := 0x2e) rfl (fraction ++ exponent ++ (sfx ++ tail))
      exact ⟨pass.1.trans (congrArg (0x2e :: ·) left), fun c member => among c (pass.2 ▸ member)⟩

end Suffix
end DeviceTree
