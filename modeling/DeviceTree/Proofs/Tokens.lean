import DeviceTree.Proofs.Suffixes

namespace DeviceTree
namespace Expr

section Numbers

variable {text sfx tail : Bytes} {v : Option Int64}

theorem read_numeral {b : UInt8} (front : Bytes.isDigit b = true ∨ b = 0x2e) (rest : Bytes) :
    isBlank b = false ∧ Token.read? b rest = (numeral (b :: rest)).map fun r => (.number r.1, r.2 - 1) := by
  have kinds : ∀ b : UInt8, Bytes.isDigit b = true ∨ b = 0x2e → isBlank b = false ∧ b ≠ 0x28 ∧ b ≠ 0x29 ∧ b ≠ 0x27 := by
    grind
  obtain ⟨blank, left, right, quote⟩ := kinds b front
  refine ⟨blank, ?_⟩
  rw [Token.read?, if_neg left, if_neg right, if_neg quote, if_pos (by simpa using front)]

theorem tokens_literal (literal : Literal text v) (ends : Delimits tail) :
    tokens? (text ++ tail) = v.bind fun w => (tokens? tail).map (.number w :: ·) := by
  have read := numeral_literal literal ends
  obtain ⟨b, rest, same, front⟩ := literal.first
  subst same
  obtain ⟨blank, token⟩ := read_numeral front (rest ++ tail)
  rw [List.cons_append] at read ⊢
  rw [tokens?, blank, token, read]
  cases v with
  | none => rfl
  | some w =>
    simp only [Bool.false_eq_true, if_false, Option.map_some, List.length_cons, Nat.add_sub_cancel, List.drop_left,
      Option.bind_some]

theorem value_number (w : Int64) : (ofTokens? [.number w]).bind eval = some w := rfl

theorem value_literal (literal : Literal text v) (closes : Suffix.Closes text sfx)
    (trimmed : Text.trimSpace (text ++ sfx) = text ++ sfx) : value? (text ++ sfx) = v := by
  have ends : Delimits [] := fun b first => nomatch first
  have left := (Suffix.leaves_literal literal closes ends).1
  have read := tokens_literal literal ends
  rw [List.append_nil] at left read
  have empty : Suffix.stripAfter false [] = [] := by rw [Suffix.stripAfter]
  have none : tokens? [] = some [] := by rw [tokens?]
  rw [value?, parse?, trimmed, Suffix.strip, left, empty, List.append_nil, read, none]
  cases v with
  | none => rfl
  | some w => exact value_number w

theorem trimSpace_words (words : ∀ b ∈ text, Bytes.isWord b = true) : Text.trimSpace text = text := by
  have solid : ∀ b : UInt8, Bytes.isWord b = true → b < 0x80 ∧ (Text.Rune.scalar b.toNat).isSpace = false :=
    forall_byte (by decide +kernel)
  exact Text.trimSpace_plain (fun b member => (solid b (words b member)).1) fun b member => (solid b (words b member)).2

-- Integers, in each base and with each suffix that C has for them, are their numbers as words, if they fit in a word.
theorem value_writes {n : Nat} (writes : Writes text n)
    (suffix : Bytes.toLower sfx ∈ [[], utf8 "u", utf8 "l", utf8 "ul", utf8 "ll", utf8 "ull"]) :
    value? (text ++ sfx) = if n < 2 ^ 64 then some (Int64.ofNat n) else none := by
  have closes : Suffix.Closes text sfx := by
    rcases List.mem_cons.mp suffix with bare | some
    · exact .inl (List.map_eq_nil_iff.mp bare)
    · have same : ∀ word ∈ [utf8 "u", utf8 "l", utf8 "ul", utf8 "ll", utf8 "ull"], word ∈ Suffix.integral := by decide
      exact .inr (.inl (same _ some))
  refine value_literal (.integer writes) closes (trimSpace_words fun b member => ?_)
  rcases List.mem_append.mp member with digit | letter
  · exact writes.words b digit
  · have filled : sfx ≠ [] := List.ne_nil_of_mem letter
    exact (Suffix.suffix_letters (closes.general filled) b letter).1

-- The largest word in hexadecimal, and the first number beyond it in octal.
theorem value_largest : Writes (utf8 "0X0fFFFFFFFFFFFFFFF") (2 ^ 64 - 1) ∧ Writes (utf8 "02000000000000000000000") (2 ^ 64) ∧
    value? (utf8 "0X0fFFFFFFFFFFFFFFF" ++ utf8 "uLL") = some (-1) ∧
    value? (utf8 "02000000000000000000000" ++ []) = none := by
  have hex : Writes (utf8 "0X0fFFFFFFFFFFFFFFF") (2 ^ 64 - 1) := .hex rfl (readDigits_eq_some_iff.mp (by decide +kernel))
  have octal : Writes (utf8 "02000000000000000000000") (2 ^ 64) := .octal (readDigits_eq_some_iff.mp (by decide +kernel))
  refine ⟨hex, octal, ?_, ?_⟩
  · exact (value_writes hex (by decide +kernel)).trans (by decide +kernel)
  · exact (value_writes octal (by decide +kernel)).trans (by decide +kernel)

end Numbers
end Expr

def Operator.spellings : List (Bytes × Operator) :=
  [(utf8 "<<", .binary .shiftLeft), (utf8 ">>", .binary .shiftRight), (utf8 "&&", .binary .and), (utf8 "||", .binary .or),
    (utf8 "<=", .binary .le), (utf8 ">=", .binary .ge), (utf8 "==", .binary .eq), (utf8 "!=", .binary .ne),
    (utf8 "|", .binary .bitOr), (utf8 "&", .binary .bitAnd), (utf8 "^", .binary .bitXor), (utf8 "<", .binary .lt),
    (utf8 ">", .binary .gt), (utf8 "*", .binary .mul), (utf8 "/", .binary .div), (utf8 "%", .binary .rem),
    (utf8 "+", .sign .plus .add), (utf8 "-", .sign .neg .sub), (utf8 "~", .unary .complement), (utf8 "!", .unary .not)]

namespace Expr

inductive Lexeme : Bytes → Token → Prop where
  | numeral {text sfx : Bytes} {v : Int64} (literal : Literal text (some v)) (closes : Suffix.Closes text sfx) :
      Lexeme (text ++ sfx) (.number v)
  | character {body : Bytes} {rune : Text.Rune} (one : Text.decode body = [rune]) (plain : body.head? ≠ some 0x5c)
      (quote : 0x27 ∉ body) : Lexeme (0x27 :: (body ++ [0x27])) (.number (Int64.ofNat rune.code))
  | escape {letter : UInt8} {v : Int64} (code : escapedChar letter = some v) : Lexeme [0x27, 0x5c, letter, 0x27] (.number v)
  | operator {text : Bytes} {op : Operator} (spelled : (text, op) ∈ Operator.spellings) : Lexeme text (.operator op)
  | lparen : Lexeme [0x28] .lparen
  | rparen : Lexeme [0x29] .rparen

inductive Spaced : Bytes → List Token → Prop where
  | nil : Spaced [] []
  | blank {b : UInt8} {rest : Bytes} {tokens : List Token} (blank : isBlank b = true) (behind : Spaced rest tokens) :
      Spaced (b :: rest) tokens
  | token {text rest : Bytes} {token : Token} {tokens : List Token} (lexeme : Lexeme text token) (behind : Spaced rest tokens) :
      Spaced (text ++ rest) (token :: tokens)

section Written

variable {source text left : Bytes} {b : UInt8}

def Begins (source text left : Bytes) : Prop :=
  ∃ rest, source = text ++ rest ∧ left = Suffix.stripAfter false rest ∧
    ∀ b ∈ Suffix.followers false rest, b ∈ Suffix.followers false source

theorem Begins.append {more beyond : Bytes} (one : Begins source text left)
    (two : ∀ rest, Suffix.stripAfter false rest = left →
      (∀ b ∈ Suffix.followers false rest, b ∈ Suffix.followers false source) → Begins rest more beyond) :
    Begins source (text ++ more) beyond := by
  obtain ⟨rest, same, remains, among⟩ := one
  obtain ⟨behind, same', remains', among'⟩ := two rest remains.symm among
  subst same same'
  exact ⟨behind, (List.append_assoc ..).symm, remains', fun c member => among c (among' c member)⟩

theorem begins_other (word : Bytes.isWord b = false) (stripped : Suffix.stripAfter false source = b :: left) :
    Begins source [b] left := by
  obtain ⟨rest, same⟩ := Suffix.strip_cons stripped
  subst same
  have pass := Suffix.passes_of_other false (byte_outside_word b word).1 rest
  unfold Suffix.Passes at pass
  rw [word, stripped] at pass
  exact ⟨rest, rfl, (List.cons.inj pass.1).2, fun c member => pass.2 ▸ member⟩

theorem begins_others (others : ∀ b ∈ text, Bytes.isWord b = false) (stripped : Suffix.stripAfter false source = text ++ left) :
    Begins source text left := by
  induction text generalizing source with
  | nil => exact ⟨source, rfl, stripped.symm, fun b => id⟩
  | cons b more ih =>
    obtain ⟨first, later⟩ := List.forall_mem_cons.mp others
    obtain ⟨rest, same, remains, among⟩ := begins_other first stripped
    obtain ⟨behind, same', remains', among'⟩ := ih later remains.symm
    subst same same'
    exact ⟨behind, rfl, remains', fun c member => among c (among' c member)⟩

theorem begins_quoted (stripped : Suffix.stripAfter false source = b :: 0x27 :: left)
    (clean : ∀ c ∈ Suffix.followers false source, c ≠ 0x27) : Begins source [b, 0x27] left := by
  obtain ⟨rest, same⟩ := Suffix.strip_cons stripped
  subst same
  rcases Suffix.strip_step false b rest with pass | ⟨body, sfx, tail, cut, left', follow⟩
  · unfold Suffix.Passes at pass
    rw [stripped] at pass
    have remains := (List.cons.inj pass.1).2
    obtain ⟨behind, same⟩ := Suffix.strip_cons remains.symm
    subst same
    have quote := Suffix.passes_of_other (b := 0x27) (Bytes.isWord b) rfl behind
    unfold Suffix.Passes at quote
    rw [quote.1] at remains
    rw [quote.2] at pass
    exact ⟨behind, rfl, (List.cons.inj remains).2, fun c member => pass.2 ▸ member⟩
  · exfalso
    obtain ⟨c, more, front⟩ := List.exists_cons_of_ne_nil cut.filled
    rw [stripped, front, List.cons_append] at left'
    have behind := (List.cons.inj left').2
    cases more with
    | nil =>
      rw [List.nil_append] at behind
      obtain ⟨rest, same⟩ := Suffix.strip_cons behind.symm
      refine clean 0x27 ?_ rfl
      rw [follow, same]
      exact List.mem_append_left _ List.mem_cons_self
    | cons d others =>
      refine cut.unquoted ?_
      rw [front, (List.cons.inj behind).1]
      exact List.mem_cons_of_mem _ List.mem_cons_self

theorem byte_large : ∀ b : UInt8, ¬ b < 0x80 → Bytes.isWord b = false := by grind

-- One character is one byte, or all its bytes are beyond the plain characters.
theorem decode_single {body : Bytes} {rune : Text.Rune} (one : Text.decode body = [rune]) :
    (∃ b, body = [b]) ∨ ∀ b ∈ body, ¬ b < 0x80 := by
  cases body with
  | nil =>
    rw [Text.decode] at one
    cases one
  | cons a rest =>
    rw [Text.decode] at one
    generalize read : Text.decodeAfter a rest = found at one
    obtain ⟨first, more⟩ := found
    have none := (List.cons.inj one).2
    have all : rest.drop more = [] := by
      cases behind : rest.drop more with
      | nil => rfl
      | cons c others =>
        rw [behind, Text.decode] at none
        cases none
    have taken : rest.take more = rest := List.take_of_length_le (List.drop_eq_nil_iff.mp all)
    cases first with
    | scalar code =>
      rcases (Text.decodeAfter_encode read).2.2 with ⟨-, zero⟩ | ⟨high, others⟩
      · rw [zero] at all
        exact .inl ⟨a, congrArg (a :: ·) all⟩
      · rw [taken] at others
        exact .inr (List.forall_mem_cons.mpr ⟨high, others⟩)
    | stray s =>
      obtain ⟨-, zero, -⟩ := Text.decodeAfter_stray read
      rw [zero] at all
      exact .inl ⟨a, congrArg (a :: ·) all⟩

theorem cut_eq_some {sep : UInt8} {text before after : Bytes} (found : Bytes.cut sep text = some (before, after)) :
    text = before ++ sep :: after ∧ sep ∉ before := by
  induction text generalizing before with
  | nil => cases found
  | cons b rest ih =>
    rw [Bytes.cut] at found
    split at found
    · rename_i same
      cases found
      exact ⟨congrArg (· :: _) same, List.not_mem_nil⟩
    · rename_i other
      split at found
      · rename_i front back inner
        cases found
        obtain ⟨split, apart⟩ := ih inner
        refine ⟨congrArg (b :: ·) split, fun member => ?_⟩
        rcases List.mem_cons.mp member with same | inside
        · exact other same.symm
        · exact apart inside
      · cases found

theorem character_cut {v : Int64} {n : Nat} (read : character text = some (v, n)) :
    (∃ letter tail, text = [0x5c, letter, 0x27] ++ tail ∧ n = 3 ∧ escapedChar letter = some v) ∨
    ∃ body rune tail, text = body ++ 0x27 :: tail ∧ n = body.length + 1 ∧ Text.decode body = [rune] ∧
      v = Int64.ofNat rune.code ∧ body.head? ≠ some 0x5c ∧ 0x27 ∉ body := by
  unfold character at read
  split at read
  · rename_i letter tail
    obtain ⟨w, code, same⟩ := Option.map_eq_some_iff.mp read
    cases same
    exact .inl ⟨letter, tail, rfl, rfl, code⟩
  · cases read
  · rename_i other
    split at read
    · rename_i body tail found
      split at read
      · rename_i rune one
        cases read
        obtain ⟨split, quote⟩ := cut_eq_some found
        refine .inr ⟨body, rune, tail, split, rfl, one, rfl, fun slash => ?_, quote⟩
        obtain ⟨more, same⟩ := List.head?_eq_some_iff.mp slash
        rw [split, same] at other
        exact other _ rfl
      · cases read
    · cases read

theorem operator_cut {first : UInt8} {rest : Bytes} {op : Operator} {n : Nat} (read : Operator.read? first rest = some (op, n)) :
    ∃ more tail, rest = more ++ tail ∧ n = more.length ∧ (first :: more, op) ∈ Operator.spellings := by
  -- The second byte is taken if it makes a longer operator.
  have two : ∀ {c : Char} {op : Operator}, (rest.head? == some c.toUInt8) = true →
      ([first, c.toUInt8], op) ∈ Operator.spellings →
      ∃ more tail, rest = more ++ tail ∧ 1 = more.length ∧ (first :: more, op) ∈ Operator.spellings := by
    intro c op follows spelled
    obtain ⟨tail, same⟩ := List.head?_eq_some_iff.mp (beq_iff_eq.mp follows)
    exact ⟨[c.toUInt8], tail, same, rfl, spelled⟩
  have one : ∀ {op : Operator}, ([first], op) ∈ Operator.spellings →
      ∃ more tail, rest = more ++ tail ∧ 0 = more.length ∧ (first :: more, op) ∈ Operator.spellings :=
    fun spelled => ⟨[], rest, rfl, rfl, spelled⟩
  unfold Operator.read? at read
  dsimp only at read
  split at read
  case h_14 => cases read
  all_goals
    rename_i same
    have byte := byte_of_char same
    subst byte
    repeat' split at read
    all_goals cases read
    all_goals first
      | exact one (by decide +kernel)
      | exact two ‹_› (by decide +kernel)

theorem blank_outside : ∀ b : UInt8, isBlank b = true → Bytes.isWord b = false := by grind

theorem operator_others : ∀ s ∈ Operator.spellings, ∀ b ∈ s.1, Bytes.isWord b = false := by decide +kernel

theorem numeral_written {v : Int64} {n : Nat} (stripped : Suffix.stripAfter false source = b :: left)
    (read : numeral (b :: left) = some (v, n)) (clean : ∀ c ∈ Suffix.followers false source, c ≠ 0x2e) :
    ∃ text, text ≠ [] ∧ Begins source text (left.drop (n - 1)) ∧ Lexeme text (.number v) := by
  obtain ⟨word, tail, split, length, literal, shape⟩ := literal_of_numeral read
  obtain ⟨c, more, front, -⟩ := literal.first
  have behind : left.drop (n - 1) = tail := by
    rw [front, List.cons_append] at split
    rw [length, front, List.length_cons, Nat.add_sub_cancel, (List.cons.inj split).2, List.drop_left]
  rw [split] at stripped
  have written : ∃ sfx rest, source = word ++ (sfx ++ rest) ∧ Suffix.Closes word sfx ∧ tail = Suffix.stripAfter false rest ∧
      ∀ c ∈ Suffix.followers false rest, c ∈ Suffix.followers false source := by
    rcases shape with hex | ⟨shaped, ends⟩
    · exact Suffix.hex_written hex stripped
    · obtain ⟨sfx, rest, parts, closes, remains, among⟩ := Suffix.piece_written shaped.piece ends stripped clean
      exact ⟨sfx, rest, parts, closes.elim .inl (Suffix.closes_shaped shaped), remains, among⟩
  obtain ⟨sfx, rest, parts, closes, remains, among⟩ := written
  refine ⟨word ++ sfx, ?_, ⟨rest, by rw [parts, List.append_assoc], behind.trans remains, among⟩, .numeral literal closes⟩
  exact List.append_ne_nil_of_left_ne_nil (front ▸ List.cons_ne_nil c more) sfx

theorem character_written {v : Int64} {n : Nat} (stripped : Suffix.stripAfter false source = 0x27 :: left)
    (read : character left = some (v, n)) (clean : ∀ c ∈ Suffix.followers false source, c ≠ 0x27) :
    ∃ text, text ≠ [] ∧ Begins source text (left.drop n) ∧ Lexeme text (.number v) := by
  have quoted : ∀ (front : Bytes) {c : UInt8} {tail : Bytes}, (∀ b ∈ front, Bytes.isWord b = false) →
      Suffix.stripAfter false source = front ++ c :: 0x27 :: tail → Begins source (front ++ [c, 0x27]) tail := by
    intro front c tail others stripped
    refine (begins_others others stripped).append fun rest remains among => ?_
    exact begins_quoted remains fun c member => clean c (among c member)
  rcases character_cut read with ⟨letter, tail, split, length, code⟩ | ⟨body, rune, tail, split, length, one, same, plain, quote⟩
  · subst split length
    have begins := quoted [0x27, 0x5c] (by decide) stripped
    exact ⟨_, List.cons_ne_nil _ _, begins, .escape code⟩
  · subst split length same
    have parts : body ++ 0x27 :: tail = (body ++ [0x27]) ++ tail := by rw [List.append_assoc]; rfl
    have behind : (body ++ 0x27 :: tail).drop (body.length + 1) = tail := by
      rw [parts, ← List.length_singleton (a := (0x27 : UInt8)), ← List.length_append, List.drop_left]
    rw [behind]
    refine ⟨_, List.cons_ne_nil _ _, ?_, .character one plain quote⟩
    rcases decode_single one with ⟨c, single⟩ | large
    · subst single
      exact quoted [0x27] (by decide) stripped
    · rw [parts] at stripped
      refine begins_others ?_ stripped
      refine List.forall_mem_cons.mpr ⟨rfl, List.forall_mem_append.mpr ⟨?_, List.forall_mem_singleton.mpr rfl⟩⟩
      exact fun b member => byte_large b (large b member)

theorem token_written {token : Token} {n : Nat} (stripped : Suffix.stripAfter false source = b :: left)
    (read : Token.read? b left = some (token, n)) (clean : ∀ c ∈ Suffix.followers false source, c ≠ 0x2e ∧ c ≠ 0x27) :
    ∃ text, text ≠ [] ∧ Begins source text (left.drop n) ∧ Lexeme text token := by
  unfold Token.read? at read
  split at read
  · rename_i paren
    cases read
    subst paren
    exact ⟨_, List.cons_ne_nil _ _, begins_other rfl stripped, .lparen⟩
  split at read
  · rename_i paren
    cases read
    subst paren
    exact ⟨_, List.cons_ne_nil _ _, begins_other rfl stripped, .rparen⟩
  split at read
  · rename_i quote
    subst quote
    obtain ⟨⟨v, n⟩, found, same⟩ := Option.map_eq_some_iff.mp read
    cases same
    exact character_written stripped found fun c member => (clean c member).2
  split at read
  · obtain ⟨⟨v, n⟩, found, same⟩ := Option.map_eq_some_iff.mp read
    cases same
    exact numeral_written stripped found fun c member => (clean c member).1
  · obtain ⟨⟨op, n⟩, found, same⟩ := Option.map_eq_some_iff.mp read
    cases same
    obtain ⟨more, tail, split, length, spelled⟩ := operator_cut found
    subst split length
    rw [List.drop_left]
    exact ⟨_, List.cons_ne_nil _ _, begins_others (operator_others _ spelled) stripped, .operator spelled⟩

-- A text whose tokens are read has them one behind the other, unless a suffix stood before a point or a quote.
theorem spaced_of_tokens (source : Bytes) {tokens : List Token} (read : tokens? (Suffix.stripAfter false source) = some tokens)
    (clean : ∀ c ∈ Suffix.followers false source, c ≠ 0x2e ∧ c ≠ 0x27) : Spaced source tokens := by
  induction size : source.length using Nat.strongRecOn generalizing source tokens with
  | ind k ih =>
    cases stripped : Suffix.stripAfter false source with
    | nil =>
      have head := Suffix.head_stripAfter false source
      rw [stripped] at head read
      cases List.head?_eq_none_iff.mp head.symm
      rw [tokens?] at read
      cases read
      exact .nil
    | cons b left =>
      rw [stripped, tokens?] at read
      split at read
      · rename_i blank
        obtain ⟨rest, same, remains, among⟩ := begins_other (blank_outside b blank) stripped
        subst same
        rw [remains] at read
        exact .blank blank (ih rest.length (by simp [← size]) rest read (fun c member => clean c (among c member)) rfl)
      · split at read
        · rename_i token n found
          obtain ⟨others, behind, same⟩ := Option.map_eq_some_iff.mp read
          subst same
          obtain ⟨text, filled, ⟨rest, same, remains, among⟩, lexeme⟩ := token_written stripped found clean
          subst same
          rw [remains] at behind
          have shorter : rest.length < k := by
            have positive := List.length_pos_iff.mpr filled
            rw [← size, List.length_append]
            omega
          exact .token lexeme (ih rest.length shorter rest behind (fun c member => clean c (among c member)) rfl)
        · cases read

end Written

def Token.opens : Token → Bool
  | .number _ => true
  | .lparen => true
  | .operator op => op.unary?.isSome
  | .rparen => false

def Token.closes : Token → Bool
  | .number _ => true
  | .rparen => true
  | _ => false

-- Behind a number nothing begins that could go on with it, and behind an operator an operand begins.
def Follows : Token → Token → Prop
  | .number _, next => next = .rparen ∨ ∃ op, next = .operator op
  | .operator _, next => next.opens = true
  | _, _ => True

theorem follows_operator {a : Token} (closes : a.closes = true) (op : Operator) : Follows a (.operator op) := by
  cases a with
  | number => exact .inr ⟨op, rfl⟩
  | rparen => trivial
  | operator => cases closes
  | lparen => cases closes

theorem follows_rparen {a : Token} (closes : a.closes = true) : Follows a .rparen := by
  cases a with
  | number => exact .inl rfl
  | rparen => trivial
  | operator => cases closes
  | lparen => cases closes

structure Sequence (tokens : List Token) : Prop where
  chain : tokens.IsChain Follows
  first : ∀ a ∈ tokens.head?, a.opens = true
  last : ∀ a ∈ tokens.getLast?, a.closes = true
  filled : tokens ≠ []

theorem Phrase.sequence {levels : List (List BinaryOp)} {tokens : List Token} {e : Expr} (phrase : Phrase levels tokens e) :
    Sequence tokens := by
  induction phrase with
  | number v =>
    refine ⟨.singleton _, fun a first => ?_, fun a last => ?_, List.cons_ne_nil _ _⟩
    · cases first
      rfl
    · cases last
      rfl
  | @group inside e inner ih =>
    refine ⟨?_, fun a first => ?_, fun a last => ?_, List.cons_ne_nil _ _⟩
    · refine .cons (List.isChain_append.mpr ⟨ih.chain, .singleton _, fun a last b first => ?_⟩) fun _ _ => trivial
      cases first
      exact follows_rparen (ih.last a last)
    · cases first
      rfl
    · rw [← List.cons_append, List.getLast?_append_of_ne_nil _ (List.cons_ne_nil _ _)] at last
      cases last
      rfl
  | @unary op u rest e spelled inner ih =>
    refine ⟨?_, fun a first => ?_, fun a last => ?_, List.cons_ne_nil _ _⟩
    · exact .cons ih.chain ih.first
    · cases first
      rw [Token.opens, spelled]
      rfl
    · rw [← List.singleton_append, List.getLast?_append_of_ne_nil _ ih.filled] at last
      exact ih.last a last
  | tighter _ ih => exact ih
  | @binary ops levels op b before after left right _ spelled _ _ one two =>
    refine ⟨?_, fun a first => ?_, fun a last => ?_, List.append_ne_nil_of_left_ne_nil one.filled _⟩
    · refine List.isChain_append.mpr ⟨one.chain, .cons two.chain two.first, fun a last c first => ?_⟩
      cases first
      exact follows_operator (one.last a last) op
    · rw [List.head?_append_of_ne_nil _ one.filled] at first
      exact one.first a first
    · rw [← List.singleton_append, ← List.append_assoc, List.getLast?_append_of_ne_nil _ two.filled] at last
      exact two.last a last

def Prolongs (b : UInt8) : Prop := b ∈ utf8 "<>&|="

instance (b : UInt8) : Decidable (Prolongs b) := inferInstanceAs (Decidable (b ∈ utf8 "<>&|="))

theorem operator_first : ∀ s ∈ Operator.spellings, s.1 ≠ [] ∧ ∀ b ∈ s.1.head?, isBlank b = false ∧
    (s.2.unary?.isSome = true → ¬ Prolongs b) ∧ Bytes.isWord b = false ∧ b ≠ 0x2e ∧ b ≠ 0x27 ∧ b ≠ 0x28 ∧ b ≠ 0x29 := by
  decide +kernel

theorem lexeme_first {text : Bytes} {token : Token} (lexeme : Lexeme text token) :
    ∃ b rest, text = b :: rest ∧ isBlank b = false ∧ (token.opens = true → ¬ Prolongs b) ∧
    ((token = .rparen ∨ ∃ op, token = .operator op) → Bytes.isWord b = false ∧ b ≠ 0x2e ∧ b ≠ 0x27) := by
  cases lexeme with
  | @numeral text sfx v literal =>
    have kinds : ∀ b : UInt8, Bytes.isDigit b = true ∨ b = 0x2e → isBlank b = false ∧ ¬ Prolongs b :=
      forall_byte (by decide +kernel)
    obtain ⟨b, rest, same, front⟩ := literal.first
    obtain ⟨blank, longer⟩ := kinds b front
    exact ⟨b, rest ++ sfx, by rw [same, List.cons_append], blank, fun _ => longer, by simp⟩
  | character => exact ⟨0x27, _, rfl, rfl, fun _ => by decide, by simp⟩
  | escape => exact ⟨0x27, _, rfl, rfl, fun _ => by decide, by simp⟩
  | operator spelled =>
    obtain ⟨filled, first⟩ := operator_first _ spelled
    obtain ⟨b, rest, same⟩ := List.exists_cons_of_ne_nil filled
    obtain ⟨blank, longer, word, point, quote, -⟩ := first b (congrArg List.head? same)
    exact ⟨b, rest, same, blank, longer, fun _ => ⟨word, point, quote⟩⟩
  | lparen => exact ⟨_, _, rfl, rfl, fun _ => by decide, by simp⟩
  | rparen => exact ⟨_, _, rfl, rfl, nofun, fun _ => by decide⟩

theorem spaced_first {rest : Bytes} {tokens : List Token} (spaced : Spaced rest tokens) :
    ∀ b ∈ rest.head?, isBlank b = true ∨ ∃ token ∈ tokens.head?, ∃ text, Lexeme text token ∧ text.head? = some b := by
  intro b first
  cases spaced with
  | nil => cases first
  | blank blank =>
    cases first
    exact .inl blank
  | @token text rest token tokens lexeme =>
    obtain ⟨c, more, same, -⟩ := lexeme_first lexeme
    refine .inr ⟨token, rfl, text, lexeme, ?_⟩
    rw [same] at first ⊢
    exact first

theorem operator_alone : ∀ s ∈ Operator.spellings, Operator.read? (s.1.headD 0) s.1.tail = some (s.2, s.1.tail.length) := by
  decide +kernel

theorem operator_apart {b : UInt8} {rest : Bytes} (ends : ∀ c ∈ rest.head?, ¬ Prolongs c) :
    Operator.read? b rest = Operator.read? b [] := by
  have absent : ∀ c : Char, Prolongs c.toUInt8 → (rest.head? == some c.toUInt8) = false :=
    fun c longer => beq_false_of_ne fun same => ends _ same longer
  have less := absent '<' (by decide)
  have greater := absent '>' (by decide)
  have both := absent '&' (by decide)
  have either := absent '|' (by decide)
  have equal := absent '=' (by decide)
  unfold Operator.read?
  simp only [less, greater, both, either, equal]
  rfl

theorem operator_read {b : UInt8} {more tail : Bytes} {op : Operator} (spelled : (b :: more, op) ∈ Operator.spellings)
    (ends : ∀ c ∈ tail.head?, ¬ Prolongs c) : Token.read? b (more ++ tail) = some (.operator op, more.length) := by
  have found : Operator.read? b (more ++ tail) = some (op, more.length) := by
    refine Eq.trans ?_ (operator_alone _ spelled)
    cases more with
    | nil => exact operator_apart ends
    | cons c others =>
      -- Only the byte behind the first is seen.
      unfold Operator.read?
      rfl
  obtain ⟨-, first⟩ := operator_first _ spelled
  obtain ⟨-, -, word, point, quote, left, right⟩ := first b rfl
  have digit := (byte_outside_word b word).1
  have front : ¬ (Bytes.isDigit b || b = 0x2e) = true := by simp [digit, point]
  rw [Token.read?, if_neg left, if_neg right, if_neg quote, if_neg front, found]
  rfl

section Read

variable {text rest : Bytes} {token : Token}

theorem strip_quoted (c : UInt8) (rest : Bytes) :
    Suffix.stripAfter false (c :: 0x27 :: rest) = c :: 0x27 :: Suffix.stripAfter false rest ∧
    Suffix.followers false (c :: 0x27 :: rest) = Suffix.followers false rest := by
  have quote : ∀ inWord, Suffix.Passes inWord 0x27 rest := fun inWord => Suffix.passes_of_other inWord rfl rest
  have behind := quote false
  unfold Suffix.Passes at behind
  rw [show Bytes.isWord 0x27 = false from rfl] at behind
  by_cases digit : Bytes.isDigit c = true
  · have piece := (shaped_of_digits (List.forall_mem_singleton.mpr digit)).piece
    have ends : Delimits (0x27 :: rest) := fun b first => by
      cases first
      decide
    obtain ⟨left, follow⟩ := Suffix.strip_piece piece ends false
    exact ⟨left.trans (congrArg (c :: ·) behind.1), follow.trans behind.2⟩
  · have pass := Suffix.passes_of_other false (Bool.eq_false_of_not_eq_true digit) (0x27 :: rest)
    have later := quote (Bytes.isWord c)
    exact ⟨pass.1.trans (congrArg (c :: ·) later.1), pass.2.trans later.2⟩

theorem cut_append {sep : UInt8} {before after : Bytes} (apart : sep ∉ before) :
    Bytes.cut sep (before ++ sep :: after) = some (before, after) := by
  induction before with
  | nil => exact if_pos rfl
  | cons b more ih =>
    rw [List.mem_cons, not_or] at apart
    rw [List.cons_append, Bytes.cut, if_neg (Ne.symm apart.1), ih apart.2]

theorem character_read {body tail : Bytes} {rune : Text.Rune} (one : Text.decode body = [rune]) (plain : body.head? ≠ some 0x5c)
    (quote : 0x27 ∉ body) : character (body ++ 0x27 :: tail) = some (Int64.ofNat rune.code, body.length + 1) := by
  cases body with
  | nil =>
    rw [Text.decode] at one
    cases one
  | cons b more =>
    have other : b ≠ 0x5c := fun same => plain (congrArg some same)
    unfold character
    split
    · rename_i same
      exact absurd (List.cons.inj same).1 other
    · rename_i same
      exact absurd (List.cons.inj same).1 other
    · rw [cut_append quote]
      dsimp only
      rw [one]

theorem tokens_cons {b : UInt8} {more left : Bytes} (blank : isBlank b = false)
    (read : Token.read? b (more ++ left) = some (token, more.length)) :
    tokens? (b :: (more ++ left)) = (tokens? left).map (token :: ·) := by
  rw [tokens?, blank, read]
  simp only [Bool.false_eq_true, if_false, List.drop_left]

def Reads (text : Bytes) (token : Token) (rest : Bytes) : Prop :=
  tokens? (Suffix.stripAfter false (text ++ rest)) = (tokens? (Suffix.stripAfter false rest)).map (token :: ·) ∧
    ∀ b ∈ Suffix.followers false (text ++ rest), ((∃ v, token = .number v) ∧ b ∈ rest.head?) ∨ b ∈ Suffix.followers false rest

theorem reads_of_strip {b : UInt8} {more : Bytes} (blank : isBlank b = false)
    (strip : Suffix.stripAfter false (b :: more ++ rest) = b :: more ++ Suffix.stripAfter false rest ∧
      Suffix.followers false (b :: more ++ rest) = Suffix.followers false rest)
    (read : Token.read? b (more ++ Suffix.stripAfter false rest) = some (token, more.length)) : Reads (b :: more) token rest := by
  obtain ⟨left, follow⟩ := strip
  refine ⟨?_, fun c member => .inr (follow ▸ member)⟩
  rw [left]
  exact tokens_cons blank read

theorem quoted_reads (body : Bytes) {v : Int64} (strip : Suffix.stripAfter false (body ++ 0x27 :: rest) =
      body ++ 0x27 :: Suffix.stripAfter false rest ∧ Suffix.followers false (body ++ 0x27 :: rest) = Suffix.followers false rest)
    (read : character (body ++ 0x27 :: Suffix.stripAfter false rest) = some (v, body.length + 1)) :
    Reads (0x27 :: (body ++ [0x27])) (.number v) rest := by
  have parts : ∀ tail : Bytes, body ++ [0x27] ++ tail = body ++ 0x27 :: tail := fun tail => by rw [List.append_assoc]; rfl
  obtain ⟨front, follows⟩ := Suffix.strip_others [0x27] (List.forall_mem_singleton.mpr rfl) (body ++ [0x27] ++ rest)
  rw [parts, strip.1] at front
  rw [parts, strip.2] at follows
  refine reads_of_strip rfl ⟨?_, ?_⟩ ?_
  · rw [List.cons_append, List.cons_append, parts, parts]
    exact front
  · rw [List.cons_append, parts]
    exact follows
  · rw [parts, Token.read?, if_neg (by decide), if_neg (by decide), if_pos rfl, read, List.length_append]
    rfl

theorem lexeme_reads (lexeme : Lexeme text token) (number : ∀ v, token = .number v → Delimits rest)
    (operator : ∀ op, token = .operator op → ∀ c ∈ rest.head?, ¬ Prolongs c) : Reads text token rest := by
  cases lexeme with
  | @numeral text sfx v literal closes =>
    have ends := number v rfl
    obtain ⟨left, among⟩ := Suffix.leaves_literal literal closes ends
    unfold Reads
    rw [List.append_assoc]
    refine ⟨?_, fun b member => (among b member).imp_left (⟨⟨v, rfl⟩, ·⟩)⟩
    have ends' : Delimits (Suffix.stripAfter false rest) := by
      unfold Delimits
      rw [Suffix.head_stripAfter]
      exact ends
    rw [left, tokens_literal literal ends']
    rfl
  | @character body rune one plain quote =>
    refine quoted_reads body ?_ (character_read one plain quote)
    rcases decode_single one with ⟨c, single⟩ | large
    · subst single
      exact strip_quoted c rest
    · have others : ∀ b ∈ body ++ [0x27], Bytes.isWord b = false :=
        List.forall_mem_append.mpr ⟨fun b member => byte_large b (large b member), List.forall_mem_singleton.mpr rfl⟩
      have strip := Suffix.strip_others _ others rest
      rwa [List.append_assoc, List.append_assoc] at strip
  | @escape letter v code =>
    refine quoted_reads [0x5c, letter] ?_ ?_
    · have slash := Suffix.passes_of_other false (b := 0x5c) rfl (letter :: 0x27 :: rest)
      obtain ⟨left, follow⟩ := strip_quoted letter rest
      exact ⟨slash.1.trans (congrArg (0x5c :: ·) left), slash.2.trans follow⟩
    · exact (congrArg (·.map (·, 3)) code).trans rfl
  | @operator text op spelled =>
    obtain ⟨filled, first⟩ := operator_first _ spelled
    obtain ⟨b, more, same⟩ := List.exists_cons_of_ne_nil filled
    dsimp only at same
    subst same
    refine reads_of_strip (first b rfl).1 (Suffix.strip_others _ (operator_others _ spelled) rest) (operator_read spelled ?_)
    rw [Suffix.head_stripAfter]
    exact operator op rfl
  | lparen =>
    exact reads_of_strip rfl (Suffix.strip_others [0x28] (List.forall_mem_singleton.mpr rfl) rest) rfl
  | rparen =>
    exact reads_of_strip rfl (Suffix.strip_others [0x29] (List.forall_mem_singleton.mpr rfl) rest) rfl

-- Tokens that are written with blanks between them are read if they stand beside each other as in an expression.
theorem tokens_of_spaced {source : Bytes} {tokens : List Token} (spaced : Spaced source tokens) (chain : tokens.IsChain Follows) :
    tokens? (Suffix.stripAfter false source) = some tokens ∧ ∀ b ∈ Suffix.followers false source, b ≠ 0x2e ∧ b ≠ 0x27 := by
  induction spaced with
  | nil =>
    rw [Suffix.stripAfter, tokens?, Suffix.followers]
    exact ⟨rfl, List.forall_mem_nil _⟩
  | @blank b rest tokens blank behind ih =>
    obtain ⟨left, follow⟩ := Suffix.strip_others _ (List.forall_mem_singleton.mpr (blank_outside b blank)) rest
    rw [List.singleton_append] at left follow
    rw [left, follow, List.singleton_append, tokens?, if_pos blank]
    exact ih chain
  | @token text rest token tokens lexeme behind ih =>
    obtain ⟨next, others⟩ := List.isChain_cons.mp chain
    obtain ⟨read, clean⟩ := ih others
    -- What stands behind the token is a blank or begins the next token.
    have first : ∀ b ∈ rest.head?, isBlank b = true ∨
        ∃ after ∈ tokens.head?, (after.opens = true → ¬ Prolongs b) ∧
          ((after = .rparen ∨ ∃ op, after = .operator op) → Bytes.isWord b = false ∧ b ≠ 0x2e ∧ b ≠ 0x27) := by
      intro b here
      rcases spaced_first behind b here with blank | ⟨after, member, word, written, begins⟩
      · exact .inl blank
      · obtain ⟨c, more, same, -, opens, closes⟩ := lexeme_first written
        rw [same] at begins
        cases begins
        exact .inr ⟨after, member, opens, closes⟩
    have blanks : ∀ b : UInt8, isBlank b = true → (Bytes.isWord b = false ∧ b ≠ 0x2e ∧ b ≠ 0x27) ∧ ¬ Prolongs b :=
      forall_byte (by decide +kernel)
    have number : ∀ v, token = .number v → ∀ b ∈ rest.head?, Bytes.isWord b = false ∧ b ≠ 0x2e ∧ b ≠ 0x27 := by
      intro v same b here
      subst same
      rcases first b here with blank | ⟨after, member, -, closes⟩
      · exact (blanks b blank).1
      · exact closes (next after member)
    have operator : ∀ op, token = .operator op → ∀ b ∈ rest.head?, ¬ Prolongs b := by
      intro op same b here
      subst same
      rcases first b here with blank | ⟨after, member, opens, -⟩
      · exact (blanks b blank).2
      · exact opens (next after member)
    have ends : ∀ v, token = .number v → Delimits rest := fun v same b here => (number v same b here).imp_right (·.1)
    obtain ⟨left, follow⟩ := lexeme_reads lexeme ends operator
    refine ⟨by rw [left, read]; rfl, fun b member => ?_⟩
    rcases follow b member with ⟨⟨v, same⟩, here⟩ | later
    · exact (number v same b here).2
    · exact clean b later

end Read

-- The tokens of an expression and its value, where it is written as the tokens say.
theorem value_written_iff (text : Bytes) (v : Int64) :
    (∃ tokens, Spaced (Text.trimSpace text) tokens ∧ (ofTokens? tokens).bind eval = some v) ↔
      value? text = some v ∧ ∀ b ∈ Suffix.followers false (Text.trimSpace text), b ≠ 0x2e ∧ b ≠ 0x27 := by
  constructor
  · rintro ⟨tokens, spaced, value⟩
    obtain ⟨e, parsed, -⟩ := Option.bind_eq_some_iff.mp value
    have sequence := (ofTokens_eq_some_iff.mp parsed).sequence
    obtain ⟨read, clean⟩ := tokens_of_spaced spaced sequence.chain
    refine ⟨?_, clean⟩
    rw [value?, parse?, Suffix.strip, read]
    exact value
  · rintro ⟨value, clean⟩
    obtain ⟨e, parsed, evaluated⟩ := Option.bind_eq_some_iff.mp value
    obtain ⟨tokens, read, tree⟩ := Option.bind_eq_some_iff.mp parsed
    refine ⟨tokens, spaced_of_tokens _ read clean, ?_⟩
    rw [tree]
    exact evaluated

theorem lexeme_quote {text : Bytes} {token : Token} (lexeme : Lexeme text token) (quote : text.head? = some 0x27) :
    (∃ body rune, text = 0x27 :: (body ++ [0x27]) ∧ Text.decode body = [rune] ∧ 0x27 ∉ body) ∨
      ∃ letter v, text = [0x27, 0x5c, letter, 0x27] ∧ escapedChar letter = some v := by
  cases lexeme with
  | numeral literal =>
    obtain ⟨b, rest, same, front⟩ := literal.first
    subst same
    cases quote
    rcases front with digit | point
    · cases digit
    · cases point
  | character one _ apart => exact .inl ⟨_, _, rfl, one, apart⟩
  | escape code => exact .inr ⟨_, _, rfl, code⟩
  | operator spelled => exact absurd rfl ((operator_first _ spelled).2 0x27 quote).2.2.2.2.1
  | lparen => cases quote
  | rparen => cases quote

theorem spaced_quote {text : Bytes} {tokens : List Token} (spaced : Spaced text tokens) (quote : text.head? = some 0x27) :
    ∃ word token rest, text = word ++ rest ∧ Lexeme word token ∧ word.head? = some 0x27 := by
  cases spaced with
  | nil => cases quote
  | blank blank =>
    cases quote
    cases blank
  | @token word rest token tokens lexeme =>
    obtain ⟨b, more, same, -⟩ := lexeme_first lexeme
    refine ⟨word, token, rest, rfl, lexeme, ?_⟩
    rw [same] at quote ⊢
    exact quote

-- The suffix is taken off between the quotes, and what is left is one character.
theorem quoted_suffix_accepted : ¬ ∀ text v, value? text = some v → ∃ tokens, Spaced (Text.trimSpace text) tokens := by
  intro law
  have trimmed : Text.trimSpace (utf8 "'1u'") = [0x27, 0x31, 0x75, 0x27] := by cbv
  have value : value? (utf8 "'1u'") = some 49 := by cbv
  obtain ⟨tokens, spaced⟩ := law _ _ value
  rw [trimmed] at spaced
  obtain ⟨word, token, rest, split, lexeme, quote⟩ := spaced_quote spaced rfl
  rcases lexeme_quote lexeme quote with ⟨body, rune, parts, one, apart⟩ | ⟨letter, v, parts, -⟩
  · rw [parts, List.cons_append, List.append_assoc] at split
    have found : Bytes.cut 0x27 [0x31, 0x75, 0x27] = some (body, rest) := by
      rw [(List.cons.inj split).2]
      exact cut_append apart
    cases found
    rw [Text.decode_ascii (by decide +kernel)] at one
    cases one
  · rw [parts] at split
    cases split

end Expr
end DeviceTree
