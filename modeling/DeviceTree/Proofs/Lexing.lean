import DeviceTree.Proofs.Quoting

namespace DeviceTree

theorem Bytes.dropLead_eq_some_iff {lead text rest : Bytes} : dropLead? lead text = some rest ↔ text = lead ++ rest := by
  induction lead generalizing text with
  | nil => simp [dropLead?]
  | cons a lead ih =>
    cases text with
    | nil => simp [dropLead?]
    | cons b text =>
      by_cases same : a = b
      · simp [dropLead?, same, ih]
      · simp [dropLead?, same, Ne.symm same]

theorem forall_prefix_cons_iff {α : Type} {first : α} {rest : List α} {P : List α → Prop} (empty : P []) :
    (∀ front, front <+: first :: rest → P front) ↔ ∀ front, front <+: rest → P (first :: front) := by
  constructor
  · exact fun all front before => all _ (List.cons_prefix_cons.mpr ⟨rfl, before⟩)
  · intro all front before
    rcases List.prefix_cons_iff.mp before with rfl | ⟨short, rfl, inside⟩
    · exact empty
    · exact all short inside

namespace Lexer

def IsName (word : Bytes) : Prop := word ≠ [] ∧ word.head? ≠ some 0x2c ∧ ∀ b ∈ word, isNameByte b = true

def IsQuoted (quote : UInt8) (word : Bytes) : Prop :=
  ∃ body, word = quote :: body ∧ quotedLength quote body = (body.length, true)

def IsLabelRef (label : Bytes) : Prop := label ≠ [] ∧ ∀ b ∈ label, isNameByte b = true

def IsPath (path : Bytes) : Prop := ∀ b ∈ path, b ≠ 0x7d ∧ b ≠ 0x0a

def IsGroup (word : Bytes) : Prop := ∃ body, word = 0x28 :: body ∧ Group.scan 1 body = ⟨body, true⟩

def Fits : TokenKind → Bytes → Prop
  | .name, word => IsName word
  | .label, word => ∃ label, word = label ++ [0x3a] ∧ isLabelName label = true
  | .char, word => IsQuoted 0x27 word
  | .ref, word => ∃ label, word = 0x26 :: label ∧ IsLabelRef label
  | .pathRef, word => ∃ path, word = utf8 "&\x7b" ++ path ++ utf8 "\x7d" ∧ IsPath path
  | _, _ => True

theorem lexeme_name {fresh : Bool} {first : UInt8} {rest : Bytes} (byte : isNameByte first = true) (comma : first ≠ 0x2c)
    (plain : first = 0x23 → (fresh && isPreproc rest) = false) : lexeme fresh first rest = name first rest := by
  have other : ∀ {c : Char}, Char.ofUInt8 first = c → isNameByte c.toUInt8 = true := by
    intro c same
    rw [← byte_of_char same, byte]
  unfold lexeme
  split
  case h_2 same =>
    rw [plain (byte_of_char same)]
    rfl
  case h_16 same => exact absurd (byte_of_char same) comma
  case h_17 => rw [if_pos byte]
  all_goals
    rename_i same
    exact absurd (other same) (by decide)

theorem takeWhile_stop {p : UInt8 → Bool} {word tail : Bytes} (all : ∀ b ∈ word, p b = true)
    (stop : ∀ b ∈ tail.head?, p b = false) : (word ++ tail).takeWhile p = word := by
  rw [List.takeWhile_append_of_pos all]
  cases tail with
  | nil => simp
  | cons b rest => simp [stop b rfl]

def freshAfter (fresh : Bool) (text : Bytes) : Bool :=
  text.foldl (fun fresh b => if b = 0x0a then true else fresh && Bytes.isSpaceOrTab b) fresh

theorem freshAfter_append (fresh : Bool) (text rest : Bytes) :
    freshAfter fresh (text ++ rest) = freshAfter (freshAfter fresh text) rest := by
  simp [freshAfter]

-- A word that ends in something other than a blank is followed by something on its line.
def Solid (word : Bytes) : Prop := ∃ b ∈ word.getLast?, isBlank b = false

theorem Solid.stale {word : Bytes} (solid : Solid word) (fresh : Bool) : freshAfter fresh word = false := by
  obtain ⟨b, last, solid⟩ := solid
  obtain ⟨init, rfl⟩ := List.getLast?_eq_some_iff.mp last
  have line : ∀ b : UInt8, isBlank b = false → b ≠ 0x0a ∧ Bytes.isSpaceOrTab b = false :=
    forall_byte (by decide +kernel)
  simp [freshAfter, line b solid]

theorem solid_end (front : Bytes) {b : UInt8} (solid : isBlank b = false) : Solid (front ++ [b]) :=
  ⟨b, by simp, solid⟩

theorem Solid.append {word : Bytes} (solid : Solid word) (front : Bytes) : Solid (front ++ word) := by
  obtain ⟨b, last, solid⟩ := solid
  obtain ⟨init, rfl⟩ := List.getLast?_eq_some_iff.mp last
  exact ⟨b, by simp, solid⟩

theorem name_not_blank : ∀ b : UInt8, isNameByte b = true → isBlank b = false :=
  forall_byte (by decide +kernel)

theorem solid_of_all {word : Bytes} (nonempty : word ≠ []) (all : ∀ b ∈ word, isNameByte b = true) : Solid word :=
  ⟨word.getLast nonempty, List.getLast?_eq_some_getLast nonempty, name_not_blank _ (all _ (List.getLast_mem nonempty))⟩

theorem quotedLength_closed {quote : UInt8} (proper : quote ≠ 0x5c) {text : Bytes} {n : Nat}
    (closed : quotedLength quote text = (n, true)) :
    ∃ body tail, text = body ++ tail ∧ body.length = n ∧ body.getLast? = some quote ∧
      ∀ after, quotedLength quote (body ++ after) = (n, true) := by
  have ends : ∀ after, quotedLength quote (quote :: after) = (1, true) := by
    intro after
    cases after <;> simp [quotedLength, proper]
  fun_induction quotedLength quote text generalizing n with
  | case1 => cases closed
  | case2 =>
    cases closed
    exact ⟨[quote], [], rfl, rfl, rfl, ends⟩
  | case3 => cases closed
  | case4 => cases closed
  | case5 c rest m ok inner ih =>
    obtain ⟨rfl, rfl⟩ := Prod.mk.inj closed
    obtain ⟨body, tail, rfl, length, last, again⟩ := ih inner
    refine ⟨0x5c :: c :: body, tail, rfl, by simp [length], ?_, ?_⟩
    · cases body with
      | nil => cases last
      | cons d more => simpa using last
    · intro after
      simp [Printer.quotedLength_escape, again]
  | case6 c rest isEscape =>
    cases closed
    exact ⟨[quote], c :: rest, rfl, rfl, rfl, ends⟩
  | case7 => cases closed
  | case8 b c rest isEscape isQuote isLine m ok inner ih =>
    obtain ⟨rfl, rfl⟩ := Prod.mk.inj closed
    obtain ⟨body, tail, whole, length, last, again⟩ := ih inner
    refine ⟨b :: body, tail, by simp [whole], by simp [length], ?_, ?_⟩
    · cases body with
      | nil => cases last
      | cons d more => simpa using last
    · intro after
      cases body with
      | nil => cases last
      | cons d more =>
        rw [List.cons_append, Printer.quotedLength_plain isEscape isQuote isLine (by simp), again]

theorem pathLength_closed {text : Bytes} {n : Nat} (closed : pathLength text = (n, true)) :
    ∃ path tail, text = path ++ 0x7d :: tail ∧ path.length + 1 = n ∧ IsPath path := by
  induction text generalizing n with
  | nil => cases closed
  | cons b rest ih =>
    rw [pathLength] at closed
    split at closed
    · rename_i brace
      cases closed
      exact ⟨[], rest, by simp [brace], rfl, by simp [IsPath]⟩
    · split at closed
      · cases closed
      · rename_i brace line
        obtain ⟨rfl, ends⟩ := Prod.mk.inj closed
        obtain ⟨path, tail, rfl, length, clean⟩ := ih (Prod.ext rfl ends)
        refine ⟨b :: path, tail, rfl, by simp [length], ?_⟩
        intro c member
        rcases List.mem_cons.mp member with rfl | later
        · exact ⟨brace, line⟩
        · exact clean c later

theorem pathLength_path {path : Bytes} (clean : IsPath path) (tail : Bytes) :
    pathLength (path ++ 0x7d :: tail) = (path.length + 1, true) := by
  induction path with
  | nil => simp [pathLength]
  | cons b rest ih =>
    obtain ⟨brace, line⟩ := clean b List.mem_cons_self
    have later := ih fun c member => clean c (List.mem_cons_of_mem _ member)
    simp [pathLength, brace, line, later]

theorem scan_closed {depth : Nat} {text : Bytes} {g : Bytes} (closed : Group.scan depth text = ⟨g, true⟩) :
    (∃ tail, text = g ++ tail) ∧ g.getLast? = some 0x29 ∧ ∀ after, Group.scan depth (g ++ after) = ⟨g, true⟩ := by
  induction text generalizing depth g with
  | nil => cases closed
  | cons b rest ih =>
    have deeper : ∀ {next : Nat},
        (∀ after, Group.scan depth (b :: after) = ⟨b :: (Group.scan next after).text, (Group.scan next after).closed⟩) →
        (∃ tail, b :: rest = g ++ tail) ∧ g.getLast? = some 0x29 ∧ ∀ after, Group.scan depth (g ++ after) = ⟨g, true⟩ := by
      intro next step
      rw [step] at closed
      obtain ⟨rfl, inner⟩ := Group.mk.inj closed
      generalize found : Group.scan next rest = group at inner
      obtain ⟨more, ends⟩ := group
      subst inner
      obtain ⟨⟨tail, rfl⟩, last, again⟩ := ih found
      refine ⟨⟨tail, rfl⟩, ?_, ?_⟩
      · cases more with
        | nil => cases last
        | cons c more => simpa using last
      · intro after
        rw [List.cons_append, step, again]
    have step := fun after => Group.scan.eq_2 depth b after
    split at step
    · exact deeper step
    · split at step
      · rw [step] at closed
        cases closed
        rename_i same _
        rw [byte_of_char same] at step ⊢
        exact ⟨⟨rest, rfl⟩, rfl, step⟩
      · exact deeper step
    · rw [step] at closed
      cases closed
    · rw [step] at closed
      cases closed
    · rw [step] at closed
      cases closed
    · exact deeper step

theorem takeWhile_cut (p : UInt8 → Bool) (text : Bytes) :
    ∃ word tail, text = word ++ tail ∧ (∀ b ∈ word, p b = true) ∧ ∀ b ∈ tail.head?, p b = false := by
  refine ⟨text.takeWhile p, text.dropWhile p, List.takeWhile_append_dropWhile.symm, ?_, ?_⟩
  · intro b member
    exact List.mem_takeWhile_imp member
  · intro b first
    have stop := List.head?_dropWhile_not p text
    rw [Option.mem_def.mp first] at stop
    simpa using stop

theorem name_eq {first : UInt8} {word tail : Bytes} (all : ∀ b ∈ word, isNameByte b = true)
    (stop : ∀ b ∈ tail.head?, isNameByte b = false) :
    name first (word ++ tail) = if tail.head? = some 0x3a ∧ isLabelName (first :: word) = true then
      (.label, word.length + 1) else (.name, word.length) := by
  rw [name, takeWhile_stop all stop]
  simp

theorem take_with (word : Bytes) (b : UInt8) (tail : Bytes) : (word ++ b :: tail).take (word.length + 1) = word ++ [b] := by
  induction word with
  | nil => simp
  | cons a rest ih => simp [ih]

theorem name_fits {first : UInt8} (rest : Bytes) (byte : isNameByte first = true) (comma : first ≠ 0x2c) :
    Fits (name first rest).1 (first :: rest.take (name first rest).2) := by
  obtain ⟨word, tail, rfl, all, stop⟩ := takeWhile_cut isNameByte rest
  rw [name_eq all stop]
  split
  · rename_i labelled
    cases tail with
    | nil => cases labelled.1
    | cons b tail =>
      cases labelled.1
      exact ⟨first :: word, by simp [take_with], labelled.2⟩
  · refine ⟨by simp, by simpa using comma, ?_⟩
    simpa using ⟨byte, all⟩

theorem quoted_fits {quote : UInt8} {rest : Bytes} {n : Nat} (proper : quote ≠ 0x5c)
    (closed : quotedLength quote rest = (n, true)) : IsQuoted quote (quote :: rest.take n) := by
  obtain ⟨body, tail, rfl, rfl, last, again⟩ := quotedLength_closed proper closed
  rw [List.take_left]
  exact ⟨body, rfl, by simpa using again []⟩

theorem reference_fits (rest : Bytes) : Fits (reference rest).1 (0x26 :: rest.take (reference rest).2) := by
  unfold reference
  split
  · rename_i body
    generalize found : pathLength body = length
    obtain ⟨n, closed⟩ := length
    cases closed with
    | false => trivial
    | true =>
      obtain ⟨path, tail, rfl, rfl, clean⟩ := pathLength_closed found
      simp only [if_true, List.take_succ_cons, take_with]
      exact ⟨path, by simp [show utf8 "&\x7b" = [0x26, 0x7b] from rfl, show utf8 "\x7d" = [0x7d] from rfl], clean⟩
  · obtain ⟨word, tail, rfl, all, stop⟩ := takeWhile_cut isNameByte rest
    simp only [takeWhile_stop all stop]
    cases word with
    | nil => trivial
    | cons b more => exact ⟨b :: more, by simp, by simp, all⟩

theorem slash_fits (rest : Bytes) (word : Bytes) : Fits (slash rest).1 word := by
  unfold slash
  split
  · trivial
  · dsimp only
    split <;> trivial

theorem lexeme_fits (fresh : Bool) (first : UInt8) (rest : Bytes) :
    Fits (lexeme fresh first rest).1 (first :: rest.take (lexeme fresh first rest).2) := by
  unfold lexeme
  split
  case h_1 => exact slash_fits rest _
  case h_2 same =>
    rw [byte_of_char same]
    split
    · trivial
    · exact name_fits rest (by decide) (by decide)
  case h_3 =>
    rw [quoted]
    generalize quotedLength first rest = length
    obtain ⟨n, closed⟩ := length
    cases closed <;> trivial
  case h_4 same =>
    rw [byte_of_char same, quoted]
    generalize found : quotedLength '\''.toUInt8 rest = length
    obtain ⟨n, closed⟩ := length
    cases closed with
    | false => trivial
    | true => exact quoted_fits (by decide) found
  case h_5 same =>
    rw [byte_of_char same]
    exact reference_fits rest
  case h_17 comma =>
    split
    · rename_i byte
      exact name_fits rest byte fun same => comma (by rw [same]; rfl)
    · trivial
  all_goals trivial

inductive Reads (fresh : Bool) (kind : TokenKind) (tail : Bytes) : Bytes → Prop where
  | intro {first : UInt8} {more : Bytes} (gap : gapPiece first (more ++ tail) = none)
      (cut : lexeme fresh first (more ++ tail) = (kind, more.length)) (solid : Solid (first :: more)) :
      Reads fresh kind tail (first :: more)

def mark : TokenKind → Option UInt8
  | .lbrace => some 0x7b
  | .rbrace => some 0x7d
  | .semicolon => some 0x3b
  | .equal => some 0x3d
  | .langle => some 0x3c
  | .rangle => some 0x3e
  | .lbracket => some 0x5b
  | .rbracket => some 0x5d
  | .lparen => some 0x28
  | .comma => some 0x2c
  | _ => none

theorem reads_mark (kind : TokenKind) {b : UInt8} (single : mark kind = some b) (fresh : Bool) (tail : Bytes) :
    Reads fresh kind tail [b] := by
  cases kind <;> cases single <;> exact .intro rfl rfl ⟨_, rfl, rfl⟩

-- A name ends where a byte follows that is neither part of it nor the colon of a label.
def Ends (tail : Bytes) : Prop := ∀ b ∈ tail.head?, isNameByte b = false ∧ b ≠ 0x3a

theorem Ends.stop {tail : Bytes} (ends : Ends tail) : ∀ b ∈ tail.head?, isNameByte b = false :=
  fun b first => (ends b first).1

-- A name that is a preprocessor directive where it comes first on its line.
def IsDirective (word : Bytes) : Prop := ∃ command ∈ preprocWords, word = 0x23 :: command

theorem commands_named : ∀ command ∈ preprocWords, command ≠ [] ∧ ∀ b ∈ command, isNameByte b = true := by
  decide +kernel

theorem name_not_space : ∀ b : UInt8, isNameByte b = true → Bytes.isSpaceOrTab b = false :=
  forall_byte (by decide +kernel)

theorem dropLead_word {command word tail : Bytes} (known : ∀ b ∈ command, isNameByte b = true)
    (all : ∀ b ∈ word, isNameByte b = true) (stop : ∀ b ∈ tail.head?, isNameByte b = false) :
    (match Bytes.dropLead? command (word ++ tail) with
      | some (b :: _) => !isNameByte b
      | some [] => true
      | none => false) = true ↔ command = word := by
  induction command generalizing word with
  | nil =>
    cases word with
    | nil =>
      cases tail with
      | nil => simp [Bytes.dropLead?]
      | cons b rest => simp [Bytes.dropLead?, stop b rfl]
    | cons c word => simp [Bytes.dropLead?, all c List.mem_cons_self]
  | cons a command ih =>
    have first := known a List.mem_cons_self
    cases word with
    | nil =>
      cases tail with
      | nil => simp [Bytes.dropLead?]
      | cons b rest =>
        have differ : a ≠ b := fun same => by simp [same, stop b rfl] at first
        simp [Bytes.dropLead?, differ]
    | cons c word =>
      have rest := ih (fun b member => known b (List.mem_cons_of_mem _ member))
        (fun b member => all b (List.mem_cons_of_mem _ member))
      by_cases same : a = c
      · simp only [Bytes.dropLead?, List.cons_append, same, if_true, rest, List.cons.injEq, true_and]
      · simp [Bytes.dropLead?, same]

theorem isPreproc_word {word tail : Bytes} (nonempty : word ≠ []) (all : ∀ b ∈ word, isNameByte b = true)
    (stop : ∀ b ∈ tail.head?, isNameByte b = false) : isPreproc (word ++ tail) = true ↔ word ∈ preprocWords := by
  have trimmed : Bytes.trimLeft Bytes.isSpaceOrTab (word ++ tail) = word ++ tail := by
    cases word with
    | nil => exact absurd rfl nonempty
    | cons b more => simp [Bytes.trimLeft, name_not_space b (all b List.mem_cons_self)]
  rw [isPreproc, trimmed, List.any_eq_true]
  constructor
  · rintro ⟨command, member, found⟩
    exact (dropLead_word (commands_named command member).2 all stop).mp found ▸ member
  · intro member
    exact ⟨word, member, (dropLead_word all all stop).mpr rfl⟩

theorem Reads.of_name {fresh : Bool} {word tail : Bytes} (proper : IsName word) (ends : Ends tail)
    (plain : fresh = true → ¬ IsDirective word ∧ isPreproc tail = false) : Reads fresh .name tail word := by
  obtain ⟨nonempty, comma, all⟩ := proper
  cases word with
  | nil => exact absurd rfl nonempty
  | cons first more =>
    have byte := all first List.mem_cons_self
    have later : ∀ b ∈ more, isNameByte b = true := fun b member => all b (List.mem_cons_of_mem _ member)
    have ordinary : first = 0x23 → (fresh && isPreproc (more ++ tail)) = false := by
      rintro rfl
      cases fresh with
      | false => rfl
      | true =>
        obtain ⟨other, silent⟩ := plain rfl
        cases more with
        | nil => simpa using silent
        | cons c more =>
          rw [Bool.true_and, Bool.eq_false_iff]
          intro found
          exact other ⟨_, (isPreproc_word (by simp) later ends.stop).mp found, rfl⟩
    refine .intro ?_ ?_ (solid_of_all nonempty all)
    · have slash : first ≠ 0x2f := by
        rintro rfl
        cases byte
      simp [gapPiece, name_not_blank first byte, slash]
    · rw [lexeme_name byte (by simpa using comma) ordinary, name_eq later ends.stop, if_neg]
      rintro ⟨colon, -⟩
      exact (ends 0x3a colon).2 rfl

theorem isLabelName_bytes {label : Bytes} (proper : isLabelName label = true) :
    ∃ first more, label = first :: more ∧ first ≠ 0x2c ∧ first ≠ 0x23 ∧ ∀ b ∈ label, isNameByte b = true := by
  have word : ∀ b : UInt8, Bytes.isWord b = true → isNameByte b = true ∧ b ≠ 0x2c ∧ b ≠ 0x23 :=
    forall_byte (by decide +kernel)
  cases label with
  | nil => cases proper
  | cons first more =>
    have all : ∀ b ∈ first :: more, Bytes.isWord b = true := by
      simp only [isLabelName, Bool.and_eq_true, List.all_eq_true] at proper
      exact proper.2
    have head := word first (all first List.mem_cons_self)
    exact ⟨first, more, rfl, head.2.1, head.2.2, fun b member => (word b (all b member)).1⟩

theorem Reads.of_label {label : Bytes} (proper : isLabelName label = true) (fresh : Bool) (tail : Bytes) :
    Reads fresh .label tail (label ++ [0x3a]) := by
  obtain ⟨first, more, rfl, comma, hash, all⟩ := isLabelName_bytes proper
  have byte := all first List.mem_cons_self
  have later : ∀ b ∈ more, isNameByte b = true := fun b member => all b (List.mem_cons_of_mem _ member)
  rw [List.cons_append]
  refine .intro ?_ ?_ (solid_end (first :: more) rfl)
  · have slash : first ≠ 0x2f := by
      rintro rfl
      cases byte
    simp [gapPiece, name_not_blank first byte, slash]
  · have colon : ∀ b ∈ (0x3a :: tail).head?, isNameByte b = false := by
      rintro b ⟨⟩
      rfl
    rw [lexeme_name byte comma (fun same => absurd same hash), List.append_assoc, List.singleton_append,
      name_eq later colon, if_pos ⟨rfl, proper⟩]
    simp

theorem Reads.of_labelRef {label tail : Bytes} (proper : IsLabelRef label) (stop : ∀ b ∈ tail.head?, isNameByte b = false)
    (fresh : Bool) : Reads fresh .ref tail (0x26 :: label) := by
  obtain ⟨nonempty, all⟩ := proper
  have cut : reference (label ++ tail) = (.ref, label.length) := by
    have word := takeWhile_stop all stop
    cases label with
    | nil => exact absurd rfl nonempty
    | cons b more =>
      have brace : b ≠ 0x7b := by
        rintro rfl
        cases all _ List.mem_cons_self
      unfold reference
      split
      · rename_i same
        cases same
        exact absurd rfl brace
      · simp only [word]
        rfl
  exact .intro rfl cut ((solid_of_all nonempty all).append [0x26])

theorem Reads.of_path {path : Bytes} (clean : IsPath path) (fresh : Bool) (tail : Bytes) :
    Reads fresh .pathRef tail (utf8 "&\x7b" ++ path ++ utf8 "\x7d") := by
  have cut : reference (0x7b :: (path ++ 0x7d :: tail)) = (.pathRef, path.length + 2) := by
    simp [reference, pathLength_path clean tail]
  have solid : Solid (0x26 :: 0x7b :: (path ++ [0x7d])) := solid_end (0x26 :: 0x7b :: path) rfl
  have whole : utf8 "&\x7b" ++ path ++ utf8 "\x7d" = 0x26 :: 0x7b :: (path ++ [0x7d]) := rfl
  rw [whole]
  refine .intro rfl ?_ solid
  have opens : ∀ rest, lexeme fresh 0x26 rest = reference rest := fun _ => rfl
  simp [opens, cut]

theorem Reads.of_quoted {kind : TokenKind} {quote : UInt8} {word tail : Bytes} (proper : IsQuoted quote word) (fresh : Bool)
    (opens : ∀ rest, lexeme fresh quote rest = quoted kind quote rest) (solid : isBlank quote = false)
    (slash : quote ≠ 0x2f) (backslash : quote ≠ 0x5c) : Reads fresh kind tail word := by
  obtain ⟨body, rfl, closed⟩ := proper
  obtain ⟨inner, rest, whole, length, last, again⟩ := quotedLength_closed backslash closed
  have all : inner = body := by
    have lengths := congrArg List.length whole
    rw [List.length_append] at lengths
    have empty : rest = [] := List.length_eq_zero_iff.mp (by omega)
    rw [whole, empty, List.append_nil]
  subst all
  refine .intro (by simp [gapPiece, solid, slash]) ?_ (Solid.append ⟨quote, last, solid⟩ [quote])
  simp [opens, quoted, again tail]

theorem Reads.of_char {word : Bytes} (proper : IsQuoted 0x27 word) (fresh : Bool) (tail : Bytes) :
    Reads fresh .char tail word :=
  .of_quoted proper fresh (fun _ => rfl) rfl (by decide) (by decide)

theorem Reads.of_string (text : Bytes) (fresh : Bool) (tail : Bytes) : Reads fresh .string tail (Printer.string text) := by
  have proper : IsQuoted 0x22 (Printer.string text) :=
    ⟨Printer.escaped text ++ [0x22], rfl, by simp [Printer.quotedLength_escaped]⟩
  exact .of_quoted proper fresh (fun _ => rfl) rfl (by decide) (by decide)

-- Empty braces are written as a lone ampersand, which names nothing.
theorem Reads.of_ampersand {tail : Bytes} (stop : ∀ b ∈ tail.head?, isNameByte b = false ∧ b ≠ 0x7b) (fresh : Bool) :
    Reads fresh .other tail [0x26] := by
  have cut : reference tail = (.other, 0) := by
    unfold reference
    split
    · exact absurd rfl (stop 0x7b rfl).2
    · have empty : ([] ++ tail).takeWhile isNameByte = [] := takeWhile_stop (by simp) fun b first => (stop b first).1
      rw [List.nil_append] at empty
      simp [empty]
  exact .intro rfl cut ⟨0x26, rfl, rfl⟩

theorem gapLength_blank {gap text : Bytes} (blank : ∀ b ∈ gap, isBlank b = true)
    (solid : ∀ first rest, text = first :: rest → gapPiece first rest = none) : gapLength 0 (gap ++ text) = gap.length := by
  induction gap with
  | nil =>
    cases text with
    | nil => rfl
    | cons b rest => simp [gapLength, solid b rest rfl]
  | cons b gap ih =>
    have later := ih fun c member => blank c (List.mem_cons_of_mem _ member)
    simp [gapLength, gapPiece, blank b List.mem_cons_self, later]

end Lexer

namespace Cursor
open Lexer

theorem next_fits (c : Cursor) : Fits c.next.1.kind c.next.1.lexeme := by
  unfold next
  dsimp only
  split
  · trivial
  · rename_i b rest _
    exact lexeme_fits _ b rest

theorem advance_append (front : Bytes) {tail : Bytes} (c : Cursor) (whole : c.rest = front ++ tail) :
    (c.advance front.length).rest = tail ∧ (c.advance front.length).fresh = freshAfter c.fresh front := by
  induction front generalizing c with
  | nil => exact ⟨whole, rfl⟩
  | cons b front ih =>
    simp only [List.length_cons, advance, whole, List.cons_append]
    exact ih _ rfl

def Facing (c : Cursor) (fresh : Bool) (text : Bytes) : Prop :=
  ∃ gap, (∀ b ∈ gap, isBlank b = true) ∧ c.rest = gap ++ text ∧ freshAfter c.fresh gap = fresh

theorem facing_start (text : Bytes) : (ofSource text).Facing true text := ⟨[], by simp, rfl, rfl⟩

theorem Facing.length_le {c : Cursor} {fresh : Bool} {text : Bytes} (facing : c.Facing fresh text) :
    text.length ≤ c.rest.length := by
  obtain ⟨gap, -, whole, -⟩ := facing
  simp [whole]

theorem Facing.skipGap {c : Cursor} {fresh : Bool} {text : Bytes} (facing : c.Facing fresh text)
    (solid : ∀ first rest, text = first :: rest → gapPiece first rest = none) :
    c.skipGap.rest = text ∧ c.skipGap.fresh = fresh := by
  obtain ⟨gap, blank, whole, start⟩ := facing
  have length := gapLength_blank blank solid
  have moved := advance_append gap c whole
  rw [Cursor.skipGap, whole, length, moved.1, moved.2]
  exact ⟨rfl, start⟩

theorem Facing.eof {c : Cursor} {fresh : Bool} (facing : c.Facing fresh []) : c.next.1.kind = .eof := by
  have moved := facing.skipGap (by simp)
  simp [next, moved.1]

def At (c : Cursor) (text : Bytes) : Prop := c.rest = text ∧ c.fresh = false

theorem At.facing {c : Cursor} {gap text : Bytes} (stands : c.At (gap ++ text)) (blank : ∀ b ∈ gap, isBlank b = true) :
    c.Facing (freshAfter false gap) text :=
  ⟨gap, blank, stands.1, by rw [stands.2]⟩

theorem At.facing_word {c : Cursor} {text : Bytes} (stands : c.At text) : c.Facing false text :=
  ⟨[], by simp, stands.1, stands.2⟩

theorem Facing.read {c : Cursor} {fresh : Bool} {kind : TokenKind} {word tail : Bytes}
    (facing : c.Facing fresh (word ++ tail)) (reads : Reads fresh kind tail word) :
    c.next.1.kind = kind ∧ c.next.1.lexeme = word ∧ c.next.2.At tail := by
  obtain ⟨gap, cut, solid⟩ := reads
  rename_i first more
  have moved := facing.skipGap (by rintro b rest ⟨⟩; exact gap)
  have after := advance_append (first :: more) c.skipGap moved.1
  rw [solid.stale] at after
  simp only [next, moved.1, List.cons_append, moved.2, cut]
  exact ⟨trivial, by simp, after⟩

theorem Facing.kind {c : Cursor} {fresh : Bool} {first : UInt8} {rest : Bytes} (facing : c.Facing fresh (first :: rest))
    (gap : gapPiece first rest = none) : c.next.1.kind = (lexeme fresh first rest).1 := by
  have moved := facing.skipGap (by rintro b rest ⟨⟩; exact gap)
  simp only [next, moved.1, moved.2]

theorem Facing.directive {c : Cursor} {word tail : Bytes} (facing : c.Facing true (word ++ tail)) (found : IsDirective word)
    (stop : ∀ b ∈ tail.head?, isNameByte b = false) : c.next.1.kind = .preproc := by
  obtain ⟨command, member, rfl⟩ := found
  obtain ⟨nonempty, all⟩ := commands_named command member
  have found := (isPreproc_word nonempty all stop).mpr member
  have opens : lexeme true 0x23 (command ++ tail) =
      if true && isPreproc (command ++ tail) then (.preproc, preprocLength (command ++ tail))
      else name 0x23 (command ++ tail) := rfl
  have kind : c.next.1.kind = (lexeme true 0x23 (command ++ tail)).1 := facing.kind rfl
  rw [kind, opens, found]
  rfl

end Cursor
end DeviceTree
