import DeviceTree.Proofs.Tiling

namespace DeviceTree

-- What a checked reader can run into.
inductive Fault where
  | outside
  | misplaced
  -- A round of a loop, or a call of a production by itself, with no byte less to read than before.
  | idle
  | unready
  deriving DecidableEq, Repr

namespace Checked

def byteAt (source : Bytes) (offset : Nat) : Except Fault UInt8 :=
  match source[offset]? with
  | some b => .ok b
  | none => .error .outside

def slice (source : Bytes) (start stop : Nat) : Except Fault Bytes :=
  if start ≤ stop ∧ stop ≤ source.length then .ok ((source.take stop).drop start) else .error .outside

def lineAt (source : Bytes) (line : Nat) : Except Fault Nat :=
  match (Position.lineStarts source)[line]? with
  | some start => .ok start
  | none => .error .outside

def byteAhead (source : Bytes) (offset : Nat) : Except Fault UInt8 :=
  if source.length ≤ offset then .ok 0 else byteAt source offset

-- The first line that begins behind the offset is searched; the offset is on the line before.
def positionAt (source : Bytes) (offset : Nat) : Except Fault Position :=
  match (Position.lineStarts source).findIdx (fun start => decide (offset < start)) with
  | 0 => .error .outside
  | line + 1 => do
    let start ← lineAt source line
    return ⟨line + 1, offset - start + 1⟩

def offsetOf (source : Bytes) (p : Position) : Except Fault Nat :=
  match p.line with
  | 0 => .error .outside
  | line + 1 => do
    let start ← lineAt source line
    return start + p.column - 1

def emit (source : Bytes) (kind : TokenKind) (start stop : Nat) : Except Fault Token := do
  let text ← slice source start stop
  let first ← positionAt source start
  let last ← positionAt source stop
  let token : Token := ⟨kind, text, first⟩
  if token.stop = last then return token else throw .misplaced

def skipWhile (source : Bytes) (p : UInt8 → Bool) (offset : Nat) : Except Fault Nat :=
  if offset < source.length then do
    let b ← byteAt source offset
    if p b then skipWhile source p (offset + 1) else return offset
  else return offset
termination_by source.length - offset

def atLineStart (source : Bytes) : Nat → Except Fault Bool
  | 0 => .ok true
  | offset + 1 => do
    let b ← byteAt source offset
    if Bytes.isSpaceOrTab b then atLineStart source offset else return b == 0x0a

def comment (source : Bytes) (start : Nat) : Except Fault (Option Nat) := do
  let body ← slice source (start + 2) source.length
  return (Lexer.commentLength body).map (start + 2 + ·)

def quoted (source : Bytes) (kind : TokenKind) (quote : UInt8) (offset : Nat) : Except Fault (TokenKind × Nat) :=
  if offset < source.length then do
    let b ← byteAt source offset
    if b = 0x5c then quoted source kind quote (offset + 2)
    else if b = quote then return (kind, offset + 1)
    else if b = 0x0a then return (.error, offset)
    else quoted source kind quote (offset + 1)
  else return (.error, min offset source.length)
termination_by source.length - offset

def path (source : Bytes) (offset : Nat) : Except Fault (TokenKind × Nat) :=
  if offset < source.length then do
    let b ← byteAt source offset
    if b = 0x7d then return (.pathRef, offset + 1)
    else if b = 0x0a then return (.error, offset)
    else path source (offset + 1)
  else return (.error, offset)
termination_by source.length - offset

def preproc (source : Bytes) (offset : Nat) : Except Fault Nat :=
  if offset < source.length then do
    let b ← byteAt source offset
    let next ← byteAhead source (offset + 1)
    if b = 0x5c && next = 0x0a then preproc source (offset + 2)
    else if b = 0x0a then return offset
    else preproc source (offset + 1)
  else return offset
termination_by source.length - offset

def name (source : Bytes) (start : Nat) : Except Fault (TokenKind × Nat) := do
  let stop ← skipWhile source Lexer.isNameByte start
  let next ← byteAhead source stop
  let word ← slice source start stop
  return if next = 0x3a && Lexer.isLabelName word then (.label, stop + 1) else (.name, stop)

def slash (source : Bytes) (start : Nat) : Except Fault (TokenKind × Nat) := do
  let stop ← skipWhile source Lexer.isDirectiveByte (start + 1)
  if start + 1 < stop && stop < source.length then
    let b ← byteAt source stop
    return if b = 0x2f then (.directive, stop + 1) else (.slash, start + 1)
  else return (.slash, start + 1)

def reference (source : Bytes) (start : Nat) : Except Fault (TokenKind × Nat) := do
  let next ← byteAhead source (start + 1)
  if next = 0x7b then path source (start + 1)
  else
    let stop ← skipWhile source Lexer.isNameByte (start + 1)
    return (if stop = start + 1 then .other else .ref, stop)

def isPreproc (source : Bytes) (start : Nat) : Except Fault Bool := do
  let rest ← slice source (start + 1) source.length
  return Lexer.isPreproc rest

def hash (source : Bytes) (start : Nat) : Except Fault (TokenKind × Nat) := do
  let fresh ← atLineStart source start
  let known ← if fresh then isPreproc source start else pure false
  if known then
    let stop ← preproc source start
    return (.preproc, stop)
  else name source start

def lexeme (source : Bytes) (start : Nat) (first : UInt8) : Except Fault (TokenKind × Nat) :=
  match Char.ofUInt8 first with
  | '/' => slash source start
  | '#' => hash source start
  | '"' => quoted source .string first (start + 1)
  | '\'' => quoted source .char first (start + 1)
  | '&' => reference source start
  | '{' => .ok (.lbrace, start + 1)
  | '}' => .ok (.rbrace, start + 1)
  | ';' => .ok (.semicolon, start + 1)
  | '=' => .ok (.equal, start + 1)
  | '<' => .ok (.langle, start + 1)
  | '>' => .ok (.rangle, start + 1)
  | '[' => .ok (.lbracket, start + 1)
  | ']' => .ok (.rbracket, start + 1)
  | '(' => .ok (.lparen, start + 1)
  | ')' => .ok (.rparen, start + 1)
  | ',' => .ok (.comma, start + 1)
  | _ => if Lexer.isNameByte first then name source start else .ok (.other, start + 1)

def nextToken (source : Bytes) (offset : Nat) : Except Fault (Token × Nat) := do
  if offset < source.length then
    let b ← byteAt source offset
    let next ← byteAhead source (offset + 1)
    if Lexer.isBlank b then nextToken source (offset + 1)
    else if b = 0x2f && next = 0x2f then
      let stop ← skipWhile source (· != 0x0a) offset
      if offset < stop then nextToken source stop else throw .idle
    else if b = 0x2f && next = 0x2a then
      match ← comment source offset with
      | some stop => if offset < stop then nextToken source stop else throw .idle
      | none =>
        let token ← emit source .error offset source.length
        return (token, source.length)
    else
      let (kind, stop) ← lexeme source offset b
      let token ← emit source kind offset stop
      return (token, stop)
  else
    let token ← emit source .eof offset offset
    return (token, offset)
termination_by source.length - offset

def group (source : Bytes) (depth offset : Nat) : Except Fault (Nat × Bool) :=
  if offset < source.length then do
    let b ← byteAt source offset
    match Char.ofUInt8 b with
    | '(' => group source (depth + 1) (offset + 1)
    | ')' => if depth - 1 = 0 then return (offset + 1, true) else group source (depth - 1) (offset + 1)
    | ';' | '{' | '}' => return (offset, false)
    | _ => group source depth (offset + 1)
  else return (offset, false)
termination_by source.length - offset

section Accesses

variable {source : Bytes} {offset : Nat} {b : UInt8} {rest : Bytes}

theorem ends_of_drop (whole : source.drop offset = []) : ¬ offset < source.length :=
  Nat.not_lt.mpr (List.drop_eq_nil_iff.mp whole)

theorem byte_of_drop (whole : source.drop offset = b :: rest) :
    offset < source.length ∧ byteAt source offset = .ok b ∧ source.drop (offset + 1) = rest := by
  have found : source[offset]? = some b := by
    rw [← List.head?_drop, whole]
    rfl
  refine ⟨(List.getElem?_eq_some_iff.mp found).1, by rw [byteAt, found], ?_⟩
  rw [← List.drop_drop, whole]
  rfl

theorem byteAhead_drop (whole : source.drop offset = rest) : byteAhead source offset = .ok (rest.head?.getD 0) := by
  cases rest with
  | nil => rw [byteAhead, if_pos (List.drop_eq_nil_iff.mp whole), List.head?_nil, Option.getD_none]
  | cons b rest =>
    obtain ⟨inside, found, -⟩ := byte_of_drop whole
    rw [byteAhead, if_neg (Nat.not_le.mpr inside), found, List.head?_cons, Option.getD_some]

-- Zero stands for no byte at all where another one is looked for.
theorem getD_head {c : UInt8} (proper : c ≠ 0) (text : Bytes) : text.head?.getD 0 = c ↔ text.head? = some c := by
  cases text with
  | nil => simp [proper.symm]
  | cons b rest => simp

theorem slice_ok {start stop : Nat} (ordered : start ≤ stop) (inside : stop ≤ source.length) :
    slice source start stop = .ok ((source.take stop).drop start) := if_pos ⟨ordered, inside⟩

theorem slice_rest (inside : offset ≤ source.length) : slice source offset source.length = .ok (source.drop offset) := by
  rw [slice_ok inside le_rfl, List.take_length]

theorem pair_of_drop {c : UInt8} (whole : source.drop offset = b :: c :: rest) :
    offset < source.length ∧ slice source offset (offset + 2) = .ok [b, c] ∧ source.drop (offset + 2) = rest := by
  obtain ⟨inside, -, behind⟩ := byte_of_drop whole
  obtain ⟨inside', -, behind'⟩ := byte_of_drop behind
  refine ⟨inside, ?_, behind'⟩
  rw [slice_ok (Nat.le_add_right ..) inside', List.drop_take, whole, Nat.add_sub_cancel_left]
  rfl

theorem lineAt_ok {line start : Nat} (found : (Position.lineStarts source)[line]? = some start) :
    lineAt source line = .ok start := by rw [lineAt, found]

theorem line_of_offset (inside : offset ≤ source.length) : ∃ line start, (Position.lineStarts source)[line]? = some start ∧
    Position.ofOffset source offset = ⟨line + 1, offset - start + 1⟩ ∧ start ≤ offset ∧
    (Position.lineStarts source).findIdx (fun start => decide (offset < start)) = line + 1 := by
  have search : (Position.lineStarts source).findIdx (fun start => decide (offset < start)) = _ :=
    Position.starts_search (Nat.zero_le offset) source
  obtain ⟨start, found, sum⟩ := Position.starts_after (source.take offset) (source.drop offset)
  have line := Position.line_after .first (source.take offset)
  rw [List.take_append_drop] at found
  rw [List.length_take, Nat.min_eq_left inside] at sum
  change _ = 1 + _ at line
  rw [line, Nat.add_sub_cancel_left] at found
  -- The search has passed over this line.
  have passed := List.not_of_lt_findIdx (search ▸ Nat.lt_succ_self _ :
    (source.take offset).count 0x0a < (Position.lineStarts source).findIdx (fun start => decide (offset < start)))
  have low : start ≤ offset := by
    rw [(List.getElem?_eq_some_iff.mp found).2] at passed
    simpa using passed
  refine ⟨_, start, found, ?_, low, search⟩
  refine Position.ext (line.trans (Nat.add_comm 1 _)) ?_
  change (Position.first.after (source.take offset)).column = offset - start + 1
  omega

theorem positionAt_ok (inside : offset ≤ source.length) : positionAt source offset = .ok (.ofOffset source offset) := by
  obtain ⟨line, start, found, same, -, search⟩ := line_of_offset inside
  rw [positionAt, search, same]
  dsimp only
  rw [lineAt_ok found]
  rfl

theorem offsetOf_ok (inside : offset ≤ source.length) : offsetOf source (.ofOffset source offset) = .ok offset := by
  obtain ⟨line, start, found, same, low, -⟩ := line_of_offset inside
  rw [same, offsetOf]
  dsimp only
  rw [lineAt_ok found]
  change Except.ok (start + (offset - start + 1) - 1) = _
  rw [show start + (offset - start + 1) - 1 = offset by omega]

theorem emit_ok {start stop : Nat} {t : Token} (spans : t.Spans source start stop) : emit source t.kind start stop = .ok t := by
  have inside := spans.inside
  have ends := spans.stop
  rw [emit, slice_ok inside.1 inside.2, positionAt_ok (inside.1.trans inside.2), positionAt_ok inside.2, spans.lexeme,
    ← spans.place, ← ends]
  change (if t.stop = t.stop then _ else _) = _
  rw [if_pos rfl]
  rfl

end Accesses

section Parts

variable {source : Bytes} {offset : Nat}

theorem skipWhile_ok (p : UInt8 → Bool) : skipWhile source p offset =
    .ok (offset + ((source.drop offset).takeWhile p).length) := by
  induction whole : source.drop offset generalizing offset with
  | nil =>
    rw [skipWhile, if_neg (ends_of_drop whole)]
    rfl
  | cons b rest ih =>
    obtain ⟨inside, found, behind⟩ := byte_of_drop whole
    rw [skipWhile, if_pos inside, found, List.takeWhile_cons]
    change (if p b then _ else _) = _
    split
    · rw [ih behind, List.length_cons, Nat.add_right_comm, Nat.add_assoc]
    · rfl

theorem atLineStart_ok (inside : offset ≤ source.length) :
    atLineStart source offset = .ok (Lexer.freshAfter true (source.take offset)) := by
  induction offset with
  | zero => rfl
  | succ offset ih =>
    obtain ⟨b, rest, whole⟩ := List.exists_cons_of_ne_nil (List.drop_eq_nil_iff.not.mpr (Nat.not_le.mpr inside))
    have found := (byte_of_drop whole).2.1
    have one : source.take (offset + 1) = source.take offset ++ [b] := by
      rw [List.take_add, whole]
      rfl
    rw [atLineStart, found, ih (Nat.le_of_succ_le inside), one, Lexer.freshAfter_append]
    generalize Lexer.freshAfter true (source.take offset) = fresh
    change (if Bytes.isSpaceOrTab b then Except.ok fresh else Except.ok (b == 0x0a)) =
      Except.ok (if b = 0x0a then true else fresh && Bytes.isSpaceOrTab b)
    have feed : Bytes.isSpaceOrTab 0x0a = false := by decide
    by_cases blank : Bytes.isSpaceOrTab b = true
    · have other : b ≠ 0x0a := fun same => by simp [same, feed] at blank
      simp [blank, other]
    · by_cases same : b = 0x0a <;> simp [blank, same, feed]

-- Behind the end, where an escape may lead, a literal is cut off at the end.
theorem quoted_end {kind : TokenKind} {quote : UInt8} (past : source.length ≤ offset) :
    quoted source kind quote offset = .ok (.error, source.length) := by
  rw [quoted, if_neg (Nat.not_lt.mpr past), Nat.min_eq_right past]
  rfl

theorem quoted_escape {kind : TokenKind} {quote : UInt8} {rest : Bytes} (whole : source.drop offset = 0x5c :: rest) :
    quoted source kind quote offset = quoted source kind quote (offset + 2) := by
  obtain ⟨longer, found, -⟩ := byte_of_drop whole
  rw [quoted, if_pos longer, found]
  rfl

theorem quoted_plain {kind : TokenKind} {quote b : UInt8} {rest : Bytes} (whole : source.drop offset = b :: rest)
    (plain : b ≠ 0x5c) : quoted source kind quote offset = if b = quote then .ok (kind, offset + 1)
      else if b = 0x0a then .ok (.error, offset) else quoted source kind quote (offset + 1) := by
  obtain ⟨longer, found, -⟩ := byte_of_drop whole
  rw [quoted, if_pos longer, found]
  change (if b = 0x5c then _ else _) = _
  rw [if_neg plain]
  rfl

theorem quotedLength_ok {kind : TokenKind} {quote : UInt8} (proper : quote ≠ 0x5c) {text : Bytes}
    (whole : source.drop offset = text) (inside : offset ≤ source.length) : quoted source kind quote offset =
      .ok (if (Lexer.quotedLength quote text).2 then kind else .error, offset + (Lexer.quotedLength quote text).1) := by
  fun_induction Lexer.quotedLength quote text generalizing offset with
  | case1 =>
    have past := List.drop_eq_nil_iff.mp whole
    rw [quoted_end past, Nat.le_antisymm inside past]
    rfl
  | case2 =>
    rw [quoted_plain whole proper, if_pos rfl]
    rfl
  | case3 other =>
    rw [quoted_plain whole (by decide), if_neg other, if_pos rfl]
    rfl
  | case4 b other line =>
    obtain ⟨longer, -, behind⟩ := byte_of_drop whole
    have last := List.drop_eq_nil_iff.mp behind
    by_cases escape : b = 0x5c
    · rw [escape] at whole
      rw [quoted_escape whole, quoted_end (last.trans (Nat.le_succ _)), Nat.le_antisymm last longer]
      rfl
    · rw [quoted_plain whole escape, if_neg other, if_neg line, quoted_end last, Nat.le_antisymm last longer]
      rfl
  | case5 c rest n closed found ih =>
    obtain ⟨-, -, behind⟩ := byte_of_drop whole
    obtain ⟨longer, -, behind⟩ := byte_of_drop behind
    rw [quoted_escape whole, ih behind longer, found]
    exact congrArg (fun stop => Except.ok (if closed then kind else .error, stop)) (by dsimp only; omega)
  | case6 c rest plain =>
    rw [quoted_plain whole plain, if_pos rfl]
    rfl
  | case7 c rest plain other =>
    rw [quoted_plain whole plain, if_neg other, if_pos rfl]
    rfl
  | case8 b c rest plain other line n closed found ih =>
    obtain ⟨longer, -, behind⟩ := byte_of_drop whole
    rw [quoted_plain whole plain, if_neg other, if_neg line, ih behind longer, found, Nat.add_right_comm, Nat.add_assoc]

theorem path_ok (inside : offset ≤ source.length) : path source offset =
    .ok (if (Lexer.pathLength (source.drop offset)).2 then .pathRef else .error,
      offset + (Lexer.pathLength (source.drop offset)).1) := by
  induction whole : source.drop offset generalizing offset with
  | nil =>
    rw [path, if_neg (ends_of_drop whole)]
    rfl
  | cons b rest ih =>
    obtain ⟨longer, found, behind⟩ := byte_of_drop whole
    rw [path, if_pos longer, found, Lexer.pathLength]
    change (if b = 0x7d then _ else if b = 0x0a then _ else _) = _
    split
    · rfl
    · split
      · rfl
      · rw [ih longer behind]
        generalize Lexer.pathLength rest = length
        obtain ⟨n, closed⟩ := length
        exact congrArg (fun stop => Except.ok (if closed then TokenKind.pathRef else .error, stop)) (by dsimp only; omega)

theorem preproc_round {b : UInt8} {rest : Bytes} (whole : source.drop offset = b :: rest) : preproc source offset =
    if (b = 0x5c && rest.head?.getD 0 = 0x0a) = true then preproc source (offset + 2)
      else if b = 0x0a then .ok offset else preproc source (offset + 1) := by
  obtain ⟨longer, found, behind⟩ := byte_of_drop whole
  rw [preproc, if_pos longer, found, byteAhead_drop behind]
  rfl

theorem preproc_ok {text : Bytes} (whole : source.drop offset = text) :
    preproc source offset = .ok (offset + Lexer.preprocLength text) := by
  fun_induction Lexer.preprocLength text generalizing offset with
  | case1 =>
    rw [preproc, if_neg (ends_of_drop whole)]
    rfl
  | case2 =>
    rw [preproc_round whole, if_neg (by decide), if_pos rfl]
    rfl
  | case3 b other =>
    rw [preproc_round whole, if_neg (by simp), if_neg other, preproc, if_neg (ends_of_drop (byte_of_drop whole).2.2)]
    rfl
  | case4 b c rest joined ih =>
    have behind := (byte_of_drop (byte_of_drop whole).2.2).2.2
    rw [preproc_round whole, List.head?_cons, Option.getD_some, if_pos joined, ih behind]
    exact congrArg Except.ok (by omega)
  | case5 c rest apart =>
    rw [preproc_round whole, List.head?_cons, Option.getD_some, if_neg apart, if_pos rfl]
    rfl
  | case6 b c rest apart other ih =>
    have behind := (byte_of_drop whole).2.2
    rw [preproc_round whole, List.head?_cons, Option.getD_some, if_neg apart, if_neg other, ih behind]
    exact congrArg Except.ok (by omega)

theorem group_ok (depth : Nat) : group source depth offset =
    .ok (offset + (Group.scan depth (source.drop offset)).text.length, (Group.scan depth (source.drop offset)).closed) := by
  induction whole : source.drop offset generalizing depth offset with
  | nil =>
    rw [group, if_neg (ends_of_drop whole)]
    rfl
  | cons b rest ih =>
    obtain ⟨inside, found, behind⟩ := byte_of_drop whole
    have deeper : ∀ depth : Nat, group source depth (offset + 1) =
        .ok (offset + (b :: (Group.scan depth rest).text).length, (Group.scan depth rest).closed) := by
      intro depth
      rw [ih depth behind, List.length_cons]
      exact congrArg (fun stop => Except.ok (stop, _)) (by omega)
    rw [group, if_pos inside, found, Group.scan]
    dsimp only [bind, Except.bind, pure, Except.pure]
    generalize Char.ofUInt8 b = c
    split
    · exact deeper (depth + 1)
    · have last : depth - 1 = 0 ↔ depth ≤ 1 := by omega
      rw [if_congr last rfl rfl]
      split
      · rfl
      · exact deeper (depth - 1)
    · rfl
    · rfl
    · rfl
    · simp only
      exact deeper depth

end Parts

section Lexemes

variable {source : Bytes} {start : Nat} {b : UInt8} {rest : Bytes} (whole : source.drop start = b :: rest)

include whole

theorem name_ok (byte : Lexer.isNameByte b = true) :
    name source start = .ok ((Lexer.name b rest).1, start + 1 + (Lexer.name b rest).2) := by
  obtain ⟨inside, -, behind⟩ := byte_of_drop whole
  obtain ⟨word, tail, rfl, all, stop⟩ := Lexer.takeWhile_cut Lexer.isNameByte rest
  have cut : ((b :: (word ++ tail)).takeWhile Lexer.isNameByte) = b :: word := by
    rw [List.takeWhile_cons, if_pos byte, Lexer.takeWhile_stop all stop]
  have after : source.drop (start + (b :: word).length) = tail := by
    rw [← List.drop_drop, whole, ← List.cons_append, List.drop_left]
  have enough : start + (b :: word).length ≤ source.length := by
    have size := congrArg List.length whole
    rw [List.length_drop, ← List.cons_append, List.length_append] at size
    omega
  have text : (source.take (start + (b :: word).length)).drop start = b :: word := by
    rw [List.drop_take, Nat.add_sub_cancel_left, whole, ← List.cons_append, List.take_left]
  have colon := getD_head (c := 0x3a) (by decide) tail
  rw [name, skipWhile_ok, whole, cut, Lexer.name_eq all stop]
  dsimp only [bind, Except.bind, pure, Except.pure]
  rw [byteAhead_drop after, slice_ok (Nat.le_add_right ..) enough, text]
  simp only [Bool.and_eq_true, decide_eq_true_eq, colon, List.length_cons]
  split <;> exact congrArg (fun stop => Except.ok (_, stop)) (by dsimp only; omega)

theorem slash_ok (plain : rest.head? ≠ some 0x2a) :
    slash source start = .ok ((Lexer.slash rest).1, start + 1 + (Lexer.slash rest).2) := by
  obtain ⟨-, -, behind⟩ := byte_of_drop whole
  obtain ⟨word, tail, rfl, all, stop⟩ := Lexer.takeWhile_cut Lexer.isDirectiveByte rest
  have after : source.drop (start + 1 + word.length) = tail := by rw [← List.drop_drop, behind, List.drop_left]
  rw [slash, skipWhile_ok, behind, Lexer.takeWhile_stop all stop, Lexer.slash, if_neg (by simpa using plain),
    Lexer.takeWhile_stop all stop]
  dsimp only [bind, Except.bind, pure, Except.pure]
  rw [List.drop_left]
  cases word with
  | nil =>
    rw [if_neg (by simp)]
    rfl
  | cons c word =>
    cases tail with
    | nil =>
      rw [if_neg (by simpa using List.drop_eq_nil_iff.mp after)]
      rfl
    | cons d tail =>
      obtain ⟨inside, found, -⟩ := byte_of_drop after
      rw [if_pos (by simpa using inside), found]
      by_cases same : d = 0x2f
      · simp [same, Nat.add_assoc]
      · simp [same]

theorem reference_ok : reference source start = .ok ((Lexer.reference rest).1, start + 1 + (Lexer.reference rest).2) := by
  obtain ⟨inside, -, behind⟩ := byte_of_drop whole
  rw [reference, byteAhead_drop behind]
  dsimp only [bind, Except.bind, pure, Except.pure]
  by_cases brace : rest.head?.getD 0 = 0x7b
  · obtain ⟨body, rfl⟩ := List.head?_eq_some_iff.mp ((getD_head (by decide) rest).mp brace)
    rw [if_pos brace, path_ok inside, behind, Lexer.pathLength, Lexer.reference]
    generalize Lexer.pathLength body = length
    obtain ⟨n, closed⟩ := length
    rfl
  · have label : Lexer.reference rest = if (rest.takeWhile Lexer.isNameByte).isEmpty then (.other, 0)
        else (.ref, (rest.takeWhile Lexer.isNameByte).length) := by
      unfold Lexer.reference
      split
      · exact (brace rfl).elim
      · rfl
    rw [if_neg brace, skipWhile_ok, behind, label]
    cases rest.takeWhile Lexer.isNameByte with
    | nil => simp
    | cons c label => simp

theorem hash_ok (sharp : b = 0x23) : hash source start =
    .ok ((Lexer.lexeme (Lexer.freshAfter true (source.take start)) b rest).1,
      start + 1 + (Lexer.lexeme (Lexer.freshAfter true (source.take start)) b rest).2) := by
  obtain ⟨inside, -, behind⟩ := byte_of_drop whole
  have named := name_ok whole (by rw [sharp]; decide)
  have line := preproc_ok whole
  subst sharp
  have first : Lexer.preprocLength (0x23 :: rest) = 1 + Lexer.preprocLength rest := by
    cases rest with
    | nil => rfl
    | cons c rest => simp [Lexer.preprocLength, Nat.add_comm]
  have split : ∀ fresh : Bool, Lexer.lexeme fresh 0x23 rest =
      if fresh && Lexer.isPreproc rest then (.preproc, Lexer.preprocLength rest) else Lexer.name 0x23 rest := fun _ => rfl
  rw [hash, atLineStart_ok (Nat.le_of_lt inside), named, line, first, isPreproc, slice_rest inside, behind, split]
  cases Lexer.freshAfter true (source.take start) with
  | false => rfl
  | true =>
    dsimp only [bind, Except.bind, pure, Except.pure, Bool.true_and]
    rw [if_pos rfl]
    cases Lexer.isPreproc rest with
    | false => rfl
    | true => exact congrArg (fun stop => Except.ok (_, stop)) (Nat.add_assoc ..).symm

theorem lexeme_ok (apart : ¬ (b = 0x2f ∧ rest.head? = some 0x2a)) : lexeme source start b =
    .ok ((Lexer.lexeme (Lexer.freshAfter true (source.take start)) b rest).1,
      start + 1 + (Lexer.lexeme (Lexer.freshAfter true (source.take start)) b rest).2) := by
  obtain ⟨inside, -, behind⟩ := byte_of_drop whole
  have literal : ∀ {kind : TokenKind} {quote : UInt8}, quote ≠ 0x5c → quoted source kind quote (start + 1) =
      .ok ((Lexer.quoted kind quote rest).1, start + 1 + (Lexer.quoted kind quote rest).2) :=
    fun proper => quotedLength_ok proper behind inside
  unfold lexeme
  split
  case h_1 same =>
    cases byte_of_char same
    exact slash_ok whole fun star => apart ⟨rfl, star⟩
  case h_2 same => exact hash_ok whole (byte_of_char same)
  case h_3 same =>
    cases byte_of_char same
    exact literal (by decide)
  case h_4 same =>
    cases byte_of_char same
    exact literal (by decide)
  case h_5 same =>
    cases byte_of_char same
    exact reference_ok whole
  case h_17 =>
    unfold Lexer.lexeme
    simp only
    split
    · rename_i byte
      exact name_ok whole byte
    · rfl
  all_goals
    rename_i same
    cases byte_of_char same
    rfl

end Lexemes

section Steps

variable {source : Bytes} {offset : Nat} {b : UInt8} {rest : Bytes} (whole : source.drop offset = b :: rest)

include whole

theorem next_behind {n : Nat} (piece : Lexer.gapPiece b rest = some n) :
    (Cursor.ofOffset source offset).next = (Cursor.ofOffset source (offset + (n + 1))).next := by
  obtain ⟨front, after, same, length, -⟩ := Lexer.gapPiece_cut piece
  have size := congrArg List.length same
  rw [List.length_cons, List.length_append] at size
  have behind : source.drop (offset + (n + 1)) = rest.drop n := by
    rw [← List.drop_drop, whole, List.drop_succ_cons]
  have skips : (Cursor.ofOffset source offset).skipGap = (Cursor.ofOffset source (offset + (n + 1))).skipGap := by
    rw [Cursor.skipGap_ofOffset, Cursor.skipGap_ofOffset, whole, behind, Lexer.gapLength, piece]
    dsimp only
    rw [Lexer.gapLength_inside n rest, Nat.min_eq_left (by omega)]
    exact congrArg (Cursor.ofOffset source) (by omega)
  rw [Cursor.next, skips]
  rfl

theorem nextToken_round : nextToken source offset =
    if Lexer.isBlank b then nextToken source (offset + 1)
    else if b = 0x2f ∧ rest.head? = some 0x2f then do
      let stop ← skipWhile source (· != 0x0a) offset
      if offset < stop then nextToken source stop else throw .idle
    else if b = 0x2f ∧ rest.head? = some 0x2a then do
      match ← comment source offset with
      | some stop => if offset < stop then nextToken source stop else throw .idle
      | none =>
        let token ← emit source .error offset source.length
        return (token, source.length)
    else do
      let (kind, stop) ← lexeme source offset b
      let token ← emit source kind offset stop
      return (token, stop) := by
  obtain ⟨inside, found, behind⟩ := byte_of_drop whole
  rw [nextToken, if_pos inside, found, byteAhead_drop behind]
  simp only [bind, Except.bind, Bool.and_eq_true, decide_eq_true_eq, getD_head (c := 0x2f) (by decide) rest,
    getD_head (c := 0x2a) (by decide) rest]

theorem nextToken_behind {n : Nat} (piece : Lexer.gapPiece b rest = some n) :
    nextToken source offset = nextToken source (offset + (n + 1)) := by
  obtain ⟨-, -, behind⟩ := byte_of_drop whole
  rw [nextToken_round whole]
  unfold Lexer.gapPiece at piece
  split at piece
  · rename_i blank
    cases piece
    rw [if_pos blank]
  · rename_i solid
    rw [if_neg solid]
    split at piece
    · rename_i slash
      cases slash
      split at piece
      · rename_i rest
        cases piece
        have line : (source.drop offset).takeWhile (· != 0x0a) = 0x2f :: (0x2f :: rest).takeWhile (· != 0x0a) := by
          rw [whole]
          rfl
        rw [if_pos ⟨rfl, rfl⟩, skipWhile_ok, line]
        exact if_pos (Nat.lt_add_of_pos_right (Nat.succ_pos _))
      · rename_i body
        obtain ⟨m, closed, rfl⟩ := Option.map_eq_some_iff.mp piece
        obtain ⟨inside, -, after⟩ := byte_of_drop behind
        have found : comment source offset = .ok (some (offset + (m + 1 + 1))) := by
          rw [comment, slice_rest inside, after]
          change Except.ok ((Lexer.commentLength body).map (offset + 2 + ·)) = _
          rw [closed]
          exact congrArg (fun stop => Except.ok (some stop)) (by dsimp only; omega)
        rw [if_neg (by simp), if_pos ⟨rfl, rfl⟩, found]
        exact if_pos (Nat.lt_add_of_pos_right (Nat.succ_pos _))
      · cases piece
    · cases piece

theorem next_solid (solid : Lexer.gapPiece b rest = none) : (Cursor.ofOffset source offset).next =
    (⟨(Lexer.lexeme (Lexer.freshAfter true (source.take offset)) b rest).1,
      b :: rest.take (Lexer.lexeme (Lexer.freshAfter true (source.take offset)) b rest).2, .ofOffset source offset⟩,
      Cursor.ofOffset source (offset + 1 + (Lexer.lexeme (Lexer.freshAfter true (source.take offset)) b rest).2)) := by
  have stays : (Cursor.ofOffset source offset).skipGap = Cursor.ofOffset source offset := by
    rw [Cursor.skipGap_ofOffset, whole, Lexer.gapLength, solid]
    rfl
  have front : (Cursor.ofOffset source offset).rest = b :: rest := whole
  rw [Cursor.next, stays]
  dsimp only
  rw [front]
  dsimp only
  rw [Cursor.advance_ofOffset]
  exact congrArg (fun stop => (_, Cursor.ofOffset source stop)) (Nat.add_right_comm offset _ 1)

theorem nextToken_solid (solid : Lexer.gapPiece b rest = none) : nextToken source offset = do
    let stop := offset + 1 + (Lexer.lexeme (Lexer.freshAfter true (source.take offset)) b rest).2
    let token ← emit source (Lexer.lexeme (Lexer.freshAfter true (source.take offset)) b rest).1 offset stop
    return (token, stop) := by
  have blank : ¬ Lexer.isBlank b = true := by
    intro blank
    unfold Lexer.gapPiece at solid
    rw [if_pos blank] at solid
    cases solid
  have line : ¬ (b = 0x2f ∧ rest.head? = some 0x2f) := by
    rintro ⟨rfl, head⟩
    obtain ⟨body, rfl⟩ := List.head?_eq_some_iff.mp head
    rw [Lexer.gapPiece, if_neg blank, if_pos rfl] at solid
    cases solid
  rw [nextToken_round whole, if_neg blank, if_neg line]
  split
  · -- A comment that is never closed is one token, up to the end.
    rename_i star
    obtain ⟨rfl, head⟩ := star
    obtain ⟨body, rfl⟩ := List.head?_eq_some_iff.mp head
    obtain ⟨-, -, behind⟩ := byte_of_drop whole
    obtain ⟨inside, -, after⟩ := byte_of_drop behind
    rw [Lexer.gapPiece, if_neg blank, if_pos rfl] at solid
    have endless : comment source offset = .ok none := by
      rw [comment, slice_rest inside, after]
      change Except.ok ((Lexer.commentLength body).map (offset + 2 + ·)) = _
      rw [Option.map_eq_none_iff.mp solid]
      rfl
    have size := congrArg List.length whole
    rw [List.length_drop] at size
    have whole : offset + 1 + (0x2a :: body : Bytes).length = source.length := by
      rw [List.length_cons] at size
      omega
    have rest : ∀ fresh : Bool, Lexer.lexeme fresh 0x2f (0x2a :: body) = (.error, (0x2a :: body : Bytes).length) := fun _ => rfl
    rw [endless, rest]
    dsimp only
    rw [whole]
    rfl
  · rename_i apart
    rw [lexeme_ok whole apart]
    rfl

end Steps

theorem quotedLength_le (quote : UInt8) (text : Bytes) : (Lexer.quotedLength quote text).1 ≤ text.length := by
  fun_induction Lexer.quotedLength quote text with
  | _ => simp_all

theorem pathLength_le (text : Bytes) : (Lexer.pathLength text).1 ≤ text.length := by
  fun_induction Lexer.pathLength text with
  | _ => simp_all

theorem preprocLength_le (text : Bytes) : Lexer.preprocLength text ≤ text.length := by
  fun_induction Lexer.preprocLength text with
  | _ => simp_all

theorem run_le {p : UInt8 → Bool} {text : Bytes} {c : UInt8} (next : (text.drop (text.takeWhile p).length).head? = some c) :
    (text.takeWhile p).length + 1 ≤ text.length := by
  obtain ⟨tail, cut⟩ := List.head?_eq_some_iff.mp next
  have size := congrArg List.length cut
  rw [List.length_drop, List.length_cons] at size
  omega

theorem name_le (first : UInt8) (rest : Bytes) : (Lexer.name first rest).2 ≤ rest.length := by
  unfold Lexer.name
  dsimp only
  split
  · rename_i label
    simp only [Bool.and_eq_true, beq_iff_eq] at label
    exact run_le label.1
  · exact (List.takeWhile_prefix _).length_le

theorem slash_le (rest : Bytes) : (Lexer.slash rest).2 ≤ rest.length := by
  unfold Lexer.slash
  split
  · exact le_rfl
  · dsimp only
    split
    · rename_i word
      simp only [Bool.and_eq_true, beq_iff_eq] at word
      exact run_le word.2
    · exact Nat.zero_le _

theorem reference_le (rest : Bytes) : (Lexer.reference rest).2 ≤ rest.length := by
  unfold Lexer.reference
  split
  · exact Nat.succ_le_succ (pathLength_le _)
  · dsimp only
    split
    · exact Nat.zero_le _
    · exact (List.takeWhile_prefix _).length_le

theorem lexeme_le (fresh : Bool) (first : UInt8) (rest : Bytes) : (Lexer.lexeme fresh first rest).2 ≤ rest.length := by
  unfold Lexer.lexeme
  split
  case h_1 => exact slash_le rest
  case h_2 =>
    split
    · exact preprocLength_le rest
    · exact name_le first rest
  case h_3 => exact quotedLength_le first rest
  case h_4 => exact quotedLength_le first rest
  case h_5 => exact reference_le rest
  case h_17 =>
    split
    · exact name_le first rest
    · exact Nat.zero_le _
  all_goals exact Nat.zero_le _

section Next

variable {source : Bytes} {offset : Nat}

-- The checked lexer gives the token that the cursor gives, and stops where the cursor does.
theorem nextToken_ok (inside : offset ≤ source.length) : ∃ start stop,
    (Cursor.ofOffset source offset).next.1.Spans source start stop ∧
    nextToken source offset = .ok ((Cursor.ofOffset source offset).next.1, stop) ∧
    (Cursor.ofOffset source offset).next.2 = Cursor.ofOffset source stop := by
  induction left : source.length - offset using Nat.strongRecOn generalizing offset with
  | ind k ih =>
    cases whole : source.drop offset with
    | nil =>
      have past := List.drop_eq_nil_iff.mp whole
      have none : (Cursor.ofOffset source offset).next = (⟨.eof, [], .ofOffset source offset⟩, .ofOffset source offset) := by
        have stays : (Cursor.ofOffset source offset).skipGap = Cursor.ofOffset source offset := by
          rw [Cursor.skipGap_ofOffset, whole]
          rfl
        have empty : (Cursor.ofOffset source offset).rest = [] := whole
        rw [Cursor.next, stays]
        dsimp only
        rw [empty]
        rfl
      have spans : Token.Spans source ⟨.eof, [], .ofOffset source offset⟩ offset offset :=
        ⟨⟨le_rfl, inside⟩, List.drop_eq_nil_of_le (List.length_take_le ..), rfl⟩
      refine ⟨offset, offset, none ▸ spans, ?_, congrArg Prod.snd none⟩
      rw [nextToken, if_neg (ends_of_drop whole), none, emit_ok spans]
      rfl
    | cons b rest =>
      obtain ⟨longer, -, -⟩ := byte_of_drop whole
      cases piece : Lexer.gapPiece b rest with
      | some n =>
        obtain ⟨front, after, same, length, -⟩ := Lexer.gapPiece_cut piece
        have size := congrArg List.length whole
        rw [List.length_drop, same, List.length_append] at size
        have later := ih (source.length - (offset + (n + 1))) (by omega) (show offset + (n + 1) ≤ source.length by omega) rfl
        rw [nextToken_behind whole piece, next_behind whole piece]
        exact later
      | none =>
        have size := congrArg List.length whole
        have short := lexeme_le (Lexer.freshAfter true (source.take offset)) b rest
        rw [List.length_drop, List.length_cons] at size
        rw [nextToken_solid whole piece, next_solid whole piece]
        generalize Lexer.lexeme (Lexer.freshAfter true (source.take offset)) b rest = found at short ⊢
        obtain ⟨kind, more⟩ := found
        dsimp only at short ⊢
        have spans : Token.Spans source ⟨kind, b :: rest.take more, .ofOffset source offset⟩ offset (offset + 1 + more) := by
          refine ⟨by omega, ?_, rfl⟩
          rw [List.drop_take, whole, Nat.add_assoc, Nat.add_sub_cancel_left, Nat.add_comm 1, List.take_succ_cons]
        refine ⟨_, _, spans, ?_, rfl⟩
        rw [emit_ok spans]
        rfl

end Next

end Checked
end DeviceTree
