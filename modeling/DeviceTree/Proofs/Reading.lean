import DeviceTree.Proofs.Wording

namespace DeviceTree
open Lexer

def ValueView.reread : ValueView → ValueView
  | .string text => .string (Printer.reread text)
  | v => v

def Setting.reread (p : Setting) : Setting := ⟨p.name, p.values.map ValueView.reread⟩

-- Where the separators are seen. A reference to the empty label is written as a lone ampersand, a comma
-- after a label belongs to it, and a name that comes first on its line may be a preprocessor directive.

def CellView.Plain : CellView → Prop
  | .ref target => target ≠ .label []
  | _ => True

def ValueView.Plain : ValueView → Prop
  | .array _ cells => ∀ c ∈ cells, c.Plain
  | .ref target => target ≠ .label []
  | _ => True

def Apart : List ValueView → Prop
  | v :: w :: rest => (∀ l, v ≠ .ref (.label l)) ∧ Apart (w :: rest)
  | _ => True

def Setting.Plain (p : Setting) : Prop := ¬ IsDirective p.name ∧ (∀ v ∈ p.values, v.Plain) ∧ Apart p.values

instance (word : Bytes) : Decidable (IsDirective word) :=
  inferInstanceAs (Decidable (∃ command ∈ preprocWords, word = 0x23 :: command))

instance : (c : CellView) → Decidable c.Plain
  | .ref target => inferInstanceAs (Decidable (target ≠ .label []))
  | .word _ => isTrue trivial
  | .raw _ => isTrue trivial

instance : (v : ValueView) → Decidable v.Plain
  | .array _ cells => inferInstanceAs (Decidable (∀ c ∈ cells, c.Plain))
  | .ref target => inferInstanceAs (Decidable (target ≠ .label []))
  | .string _ => isTrue trivial
  | .bytes _ => isTrue trivial

instance : (v : ValueView) → Decidable (∀ l, v ≠ .ref (.label l))
  | .ref (.label l) => isFalse fun other => other l rfl
  | .ref (.path _) => isTrue nofun
  | .array _ _ => isTrue nofun
  | .string _ => isTrue nofun
  | .bytes _ => isTrue nofun

instance decidableApart : (vs : List ValueView) → Decidable (Apart vs)
  | [] => isTrue trivial
  | [_] => isTrue trivial
  | _ :: w :: rest => @instDecidableAnd _ _ _ (decidableApart (w :: rest))

instance (p : Setting) : Decidable p.Plain :=
  inferInstanceAs (Decidable (¬ IsDirective p.name ∧ (∀ v ∈ p.values, v.Plain) ∧ Apart p.values))

namespace Parser

inductive Outcome (good : Prop) (s after : State) (fine : Prop) : Prop where
  | clean (sound : good) (same : after.errors = s.errors) (result : fine)
  | noted (flawed : ¬ good) (more : s.errors.length < after.errors.length)

theorem Outcome.then {one two good fine done : Prop} {s mid after : State} (first : Outcome one s mid fine)
    (second : fine → Outcome two mid after done) (grows : mid.errors <:+ after.errors) (both : good ↔ one ∧ two) :
    Outcome good s after done := by
  cases first with
  | clean sound same result =>
    cases second result with
    | clean sound' same' result' => exact .clean (both.mpr ⟨sound, sound'⟩) (same'.trans same) result'
    | noted flawed more => exact .noted (fun all => flawed (both.mp all).2) (by rw [← same]; exact more)
  | noted flawed more => exact .noted (fun all => flawed (both.mp all).1) (Nat.lt_of_lt_of_le more grows.length_le)

theorem Outcome.imp {good fine done : Prop} {s after : State} (outcome : Outcome good s after fine)
    (result : fine → done) : Outcome good s after done := by
  cases outcome with
  | clean sound same fine => exact .clean sound same (result fine)
  | noted flawed more => exact .noted flawed more

theorem Outcome.since {good fine : Prop} {s mid after : State} (outcome : Outcome good mid after fine)
    (same : mid.errors = s.errors) : Outcome good s after fine := by
  cases outcome with
  | clean sound again result => exact .clean sound (again.trans same) result
  | noted flawed more => exact .noted flawed (same ▸ more)

theorem State.read {s : State} {fresh : Bool} {kind : TokenKind} {word tail : Bytes}
    (facing : s.cursor.Facing fresh (word ++ tail)) (reads : Reads fresh kind tail word) :
    s.peek.kind = kind ∧ s.peek.lexeme = word ∧ s.take.cursor.At tail :=
  facing.read reads

theorem text_eq {t : Token} {kind : TokenKind} (same : t.kind = kind) (other : kind ≠ .label) : t.text = t.lexeme := by
  subst same
  unfold Token.text
  split
  · contradiction
  · rfl

theorem labels_read {ls : List Bytes} (proper : ∀ l ∈ ls, isLabelName l = true) {fuel : Nat} {s : State} {fresh : Bool}
    {tail : Bytes} (facing : s.cursor.Facing fresh (labelsText ls ++ tail)) (enough : ls.length < fuel)
    (stop : ∀ c : Cursor, c.Facing (fresh && ls.isEmpty) tail → c.next.1.kind ≠ .label) :
    (labels fuel s).1.map Label.name = ls ∧ (labels fuel s).2.cursor.Facing (fresh && ls.isEmpty) tail ∧
      (labels fuel s).2.errors = s.errors := by
  induction ls generalizing fuel s fresh with
  | nil =>
    simp only [labelsText, List.flatMap_nil, List.nil_append, List.isEmpty_nil, Bool.and_true] at facing stop ⊢
    cases fuel with
    | zero => exact absurd enough (Nat.not_lt_zero _)
    | succ fuel =>
      have other : s.peek.kind ≠ .label := stop s.cursor facing
      simp only [labels, other, if_false]
      exact ⟨rfl, facing, trivial⟩
  | cons l ls ih =>
    cases fuel with
    | zero => exact absurd enough (Nat.not_lt_zero _)
    | succ fuel =>
      have text : labelsText (l :: ls) ++ tail = (l ++ [0x3a]) ++ ([0x20] ++ (labelsText ls ++ tail)) := by
        simp [labelsText, show utf8 ": " = [0x3a, 0x20] from rfl]
      rw [text] at facing
      obtain ⟨kind, lexeme, after⟩ := State.read facing (.of_label (proper l List.mem_cons_self) fresh _)
      have next := after.facing (by simp [isBlank])
      have step : labels (fuel + 1) s = (⟨s.peek.text, s.peek.range⟩ :: (labels fuel s.take).1, (labels fuel s.take).2) := by
        rw [labels]
        simp only [kind, if_true]
      have later := ih (fun k member => proper k (List.mem_cons_of_mem _ member)) (s := s.take) next
        (Nat.lt_of_succ_lt_succ enough) (by simpa [freshAfter] using stop)
      have name : s.peek.text = l := by
        simp [Token.text, kind, lexeme]
      rw [step]
      refine ⟨by simp [name, later.1], ?_, later.2.2⟩
      simpa [freshAfter] using later.2.1

theorem cells_int {fuel : Nat} {s : State} (kind : s.peek.kind = .name ∨ s.peek.kind = .char) :
    cells (fuel + 1) s = (cellOfToken s.peek :: (cells fuel s.take).1, (cells fuel s.take).2) := by
  rw [cells]
  rcases kind with kind | kind <;> simp only [kind]

theorem cells_ref {fuel : Nat} {s : State} (kind : s.peek.kind = .ref ∨ s.peek.kind = .pathRef) :
    cells (fuel + 1) s = (.ref (refOfToken s.peek) :: (cells fuel s.take).1, (cells fuel s.take).2) := by
  rw [cells]
  rcases kind with kind | kind <;> simp only [kind]

theorem cells_group {fuel : Nat} {s : State} {body tail : Bytes} (kind : s.peek.kind = .lparen)
    (opened : s.take.cursor.At (body ++ tail)) (closed : Group.scan 1 body = ⟨body, true⟩) :
    ∃ range after, after.cursor.At tail ∧ after.errors = s.errors ∧
      cells (fuel + 1) s = (.int range (0x28 :: body) (Expr.value? (0x28 :: body)) :: (cells fuel after).1,
        (cells fuel after).2) := by
  obtain ⟨-, last, again⟩ := scan_closed closed
  have scanned : Group.scan 1 s.take.cursor.rest = ⟨body, true⟩ := by rw [opened.1, again]
  have moved := Cursor.advance_append body s.take.cursor opened.1
  have solid : Solid body := ⟨0x29, last, rfl⟩
  rw [solid.stale] at moved
  refine ⟨⟨s.peek.start, s.peek.start.after (0x28 :: body)⟩,
    { s.take with cursor := s.take.cursor.advance body.length }, moved, rfl, ?_⟩
  rw [cells]
  simp only [kind, scanned, if_true]

theorem word_view {n : Nat} {width : Width} (bound : n < 2 ^ width.bits) (range : Range) :
    (Cell.int range (hexNumeral n) (Expr.value? (hexNumeral n))).view width = .word n := by
  have wide : 2 ^ width.bits ≤ 2 ^ 64 := by cases width <;> decide
  have fits : n < 2 ^ 64 := Nat.lt_of_lt_of_le bound wide
  rw [Expr.value_hexNumeral fits]
  have back : n.toUInt64.toInt64.toUInt64.toNat = n := by
    rw [UInt64.toUInt64_toInt64]
    exact Nat.mod_eq_of_lt fits
  rw [Cell.view, back, Nat.mod_eq_of_lt bound]

theorem hexNumeral_name (n : Nat) : IsName (hexNumeral n) := by
  have digits : ∀ b : UInt8, Bytes.isHexDigit b = true → isNameByte b = true := forall_byte (by decide +kernel)
  refine ⟨by simp [hexNumeral_eq], by simp [hexNumeral_eq], ?_⟩
  intro b member
  rw [hexNumeral_eq, List.mem_cons, List.mem_cons] at member
  rcases member with rfl | rfl | digit
  · decide
  · decide
  · exact digits b (Bytes.hex_digits n b digit)

theorem target_read {target : Target} (spelled : target.Spelled) (plain : target ≠ .label []) {s : State} {tail : Bytes}
    (facing : s.cursor.Facing false (target.text ++ tail))
    (stop : ∀ l, target = .label l → ∀ b ∈ tail.head?, isNameByte b = false) :
    (s.peek.kind = .ref ∨ s.peek.kind = .pathRef) ∧ (refOfToken s.peek).target = target ∧ s.take.cursor.At tail := by
  cases target with
  | label l =>
    have proper : IsLabelRef l := by
      rcases spelled with rfl | proper
      · exact absurd rfl plain
      · exact proper
    obtain ⟨kind, lexeme, after⟩ := State.read facing (.of_labelRef proper (stop l rfl) false)
    exact ⟨.inl kind, target_ref kind lexeme, after⟩
  | path p =>
    obtain ⟨nonempty, proper⟩ := spelled
    obtain ⟨kind, lexeme, after⟩ := State.read facing (.of_path proper false tail)
    refine ⟨.inr kind, ?_, after⟩
    rw [target_pathRef kind lexeme, if_neg nonempty]

theorem cell_read {c : CellView} {width : Width} (spelled : c.Spelled width) (plain : c.Plain) {s : State} {tail : Bytes}
    (facing : s.cursor.Facing false (c.text ++ tail)) (ends : Ends tail) (fuel : Nat) :
    ∃ cell after, cell.view width = c ∧ after.cursor.At tail ∧ after.errors = s.errors ∧
      cells (fuel + 1) s = (cell :: (cells fuel after).1, (cells fuel after).2) := by
  have integer : ∀ {kind : TokenKind} {text : Bytes}, kind = .name ∨ kind = .char → Reads false kind tail text →
      s.cursor.Facing false (text ++ tail) → ∃ range after, after.cursor.At tail ∧ after.errors = s.errors ∧
        cells (fuel + 1) s = (.int range text (Expr.value? text) :: (cells fuel after).1, (cells fuel after).2) := by
    intro kind text sort reads here
    obtain ⟨same, lexeme, after⟩ := State.read here reads
    have written : s.peek.text = text := by
      rw [text_eq same (by rcases sort with rfl | rfl <;> decide), lexeme]
    refine ⟨s.peek.range, s.take, after, rfl, ?_⟩
    rw [cells_int (by rw [same]; exact sort), cellOfToken, written]
  cases c with
  | word n =>
    have reads := Reads.of_name (hexNumeral_name n) ends (fun fresh : false = true => nomatch fresh)
    obtain ⟨range, after, stands, same, step⟩ := integer (.inl rfl) reads facing
    exact ⟨_, after, word_view spelled range, stands, same, step⟩
  | raw text =>
    obtain ⟨proper, valueless⟩ := spelled
    have view : ∀ range, (Cell.int range text (Expr.value? text)).view width = .raw text := by
      intro range
      rw [valueless]
      rfl
    rcases proper with name | char | ⟨body, rfl, closed⟩
    · have reads := Reads.of_name name ends (fun fresh : false = true => nomatch fresh)
      obtain ⟨range, after, stands, same, step⟩ := integer (.inl rfl) reads facing
      exact ⟨_, after, view range, stands, same, step⟩
    · obtain ⟨range, after, stands, same, step⟩ := integer (.inr rfl) (.of_char char false tail) facing
      exact ⟨_, after, view range, stands, same, step⟩
    · have whole : s.cursor.Facing false ([0x28] ++ (body ++ tail)) := facing
      obtain ⟨kind, -, opened⟩ := State.read whole (reads_mark .lparen rfl false _)
      obtain ⟨range, after, stands, same, step⟩ := cells_group kind opened closed
      exact ⟨_, after, view range, stands, same, step⟩
  | ref target =>
    obtain ⟨kind, same, after⟩ := target_read spelled plain facing fun _ _ => ends.stop
    exact ⟨.ref (refOfToken s.peek), s.take, by rw [Cell.view, same], after, rfl, cells_ref kind⟩

theorem join_cons (sep piece : Bytes) (rest : List Bytes) :
    Bytes.join sep (piece :: rest) = piece ++ ((if rest = [] then [] else sep) ++ Bytes.join sep rest) := by
  cases rest with
  | nil => simp [Bytes.join]
  | cons next rest => simp [Bytes.join]

theorem length_join (sep : Bytes) {pieces : List Bytes} (nonempty : ∀ p ∈ pieces, p ≠ []) :
    pieces.length ≤ (Bytes.join sep pieces).length := by
  induction pieces with
  | nil => simp
  | cons piece rest ih =>
    have first := List.length_pos_iff.mpr (nonempty piece List.mem_cons_self)
    have later := ih fun p member => nonempty p (List.mem_cons_of_mem _ member)
    rw [join_cons]
    simp only [List.length_cons, List.length_append]
    omega

theorem cellsText_cons (c : CellView) (rest : List CellView) :
    cellsText (c :: rest) = c.text ++ ((if rest = [] then [] else [0x20]) ++ cellsText rest) := by
  simp [cellsText, join_cons, show utf8 " " = [0x20] from rfl]

theorem cells_read {width : Width} {cs : List CellView} (spelled : ∀ c ∈ cs, c.Spelled width) {fuel : Nat} {s : State}
    {tail : Bytes} (facing : s.cursor.Facing false (cellsText cs ++ 0x3e :: tail)) (enough : cs.length < fuel) :
    Outcome (∀ c ∈ cs, c.Plain) s (cells fuel s).2.2
      ((cells fuel s).1.map (Cell.view width) = cs ∧ (cells fuel s).2.2.cursor.At tail) := by
  induction cs generalizing fuel s with
  | nil =>
    cases fuel with
    | zero => exact absurd enough (Nat.not_lt_zero _)
    | succ fuel =>
      have whole : s.cursor.Facing false ([0x3e] ++ tail) := facing
      obtain ⟨kind, -, after⟩ := State.read whole (reads_mark .rangle rfl false _)
      have step : cells (fuel + 1) s = ([], s.peek.stop, s.take) := by
        rw [cells]
        simp only [kind]
      rw [step]
      exact .clean (by simp) rfl ⟨rfl, after⟩
  | cons c rest ih =>
    cases fuel with
    | zero => exact absurd enough (Nat.not_lt_zero _)
    | succ fuel =>
      have text : cellsText (c :: rest) ++ 0x3e :: tail =
          c.text ++ ((if rest = [] then [] else [0x20]) ++ (cellsText rest ++ 0x3e :: tail)) := by
        rw [cellsText_cons, List.append_assoc, List.append_assoc]
      have ends : Ends ((if rest = [] then [] else [0x20]) ++ (cellsText rest ++ 0x3e :: tail)) := by
        cases rest with
        | nil => simp [Ends, cellsText, Bytes.join, isNameByte]; decide
        | cons d rest => simp [Ends]; decide
      have blank : ∀ b ∈ (if rest = [] then [] else [0x20] : Bytes), isBlank b = true := by
        split <;> simp [isBlank]
      rw [text] at facing
      by_cases plain : c.Plain
      · obtain ⟨cell, after, view, stands, same, step⟩ := cell_read (spelled c List.mem_cons_self) plain facing ends fuel
        have next : after.cursor.Facing false (cellsText rest ++ 0x3e :: tail) := by
          have facing := stands.facing blank
          split at facing <;> exact facing
        have later := ih (fun d member => spelled d (List.mem_cons_of_mem _ member)) next (Nat.lt_of_succ_lt_succ enough)
        have good : (∀ d ∈ c :: rest, d.Plain) ↔ ∀ d ∈ rest, d.Plain := by simp [plain]
        rw [step, good]
        refine (later.since same).imp ?_
        rintro ⟨views, stands⟩
        exact ⟨by simp [view, views], stands⟩
      · have lone : c = .ref (.label []) := by
          cases c with
          | ref target => simpa [CellView.Plain] using plain
          | _ => exact absurd trivial plain
        subst lone
        have stop : ∀ b ∈ ((if rest = [] then [] else [0x20]) ++ (cellsText rest ++ 0x3e :: tail)).head?,
            isNameByte b = false ∧ b ≠ 0x7b := by
          cases rest with
          | nil => simp [cellsText, Bytes.join]; decide
          | cons d rest => simp; decide
        obtain ⟨kind, -, -⟩ := State.read facing (.of_ampersand stop false)
        have step : cells (fuel + 1) s = ([], s.last, s.report s.peek.range .unterminatedArray) := by
          rw [cells]
          simp only [kind]
        rw [step]
        exact .noted (fun all => plain (all _ List.mem_cons_self)) (Nat.lt_succ_self _)

theorem cell_text_ne_nil {c : CellView} {width : Width} (spelled : c.Spelled width) : c.text ≠ [] := by
  cases c with
  | word n => simp [CellView.text, hexNumeral_eq]
  | raw text =>
    rcases spelled.1 with name | ⟨body, rfl, -⟩ | ⟨body, rfl, -⟩
    · exact name.1
    · simp [CellView.text]
    · simp [CellView.text]
  | ref target => cases target <;> simp [CellView.text, Target.text, show utf8 "&\x7b" = [0x26, 0x7b] from rfl]

theorem byteElements_read {data : Bytes} {fuel : Nat} {s : State} {tail : Bytes}
    (facing : s.cursor.Facing false (bytesText data ++ 0x5d :: tail)) (enough : data.length < fuel) :
    (byteElements fuel s).1 = data ∧ (byteElements fuel s).2.2.cursor.At tail ∧
      (byteElements fuel s).2.2.errors = s.errors := by
  induction data generalizing fuel s with
  | nil =>
    cases fuel with
    | zero => exact absurd enough (Nat.not_lt_zero _)
    | succ fuel =>
      have whole : s.cursor.Facing false ([0x5d] ++ tail) := facing
      obtain ⟨kind, -, after⟩ := State.read whole (reads_mark .rbracket rfl false _)
      have step : byteElements (fuel + 1) s = ([], s.peek.stop, s.take) := by
        rw [byteElements]
        simp only [kind]
      rw [step]
      exact ⟨rfl, after, rfl⟩
  | cons b rest ih =>
    cases fuel with
    | zero => exact absurd enough (Nat.not_lt_zero _)
    | succ fuel =>
      have text : bytesText (b :: rest) ++ 0x5d :: tail =
          [(Printer.hexDigits b).1, (Printer.hexDigits b).2] ++
            ((if rest = [] then [] else [0x20]) ++ (bytesText rest ++ 0x5d :: tail)) := by
        simp [bytesText, join_cons, Printer.hexPadded_byte, show utf8 " " = [0x20] from rfl]
      have ends : Ends ((if rest = [] then [] else [0x20]) ++ (bytesText rest ++ 0x5d :: tail)) := by
        cases rest with
        | nil => simp [Ends, bytesText, Bytes.join]; decide
        | cons d rest => simp [Ends]; decide
      have blank : ∀ c ∈ (if rest = [] then [] else [0x20] : Bytes), isBlank c = true := by
        split <;> simp [isBlank]
      have name : IsName [(Printer.hexDigits b).1, (Printer.hexDigits b).2] := by
        have digits : ∀ b : UInt8, Bytes.isHexDigit b = true → isNameByte b = true ∧ b ≠ 0x2c :=
          forall_byte (by decide +kernel)
        obtain ⟨one, two⟩ := Printer.hexDigits_hex b
        refine ⟨by simp, by simpa using (digits _ one).2, ?_⟩
        simpa using ⟨(digits _ one).1, (digits _ two).1⟩
      rw [text] at facing
      obtain ⟨kind, lexeme, after⟩ :=
        State.read facing (.of_name name ends fun fresh : false = true => nomatch fresh)
      have element : byteElement s.peek.text = ([b], true) := by
        rw [text_eq kind (by decide), lexeme]
        simp [byteElement, hexPairs, Printer.readDigits_byte, Text.toUInt8_eq rfl]
      have step : byteElements (fuel + 1) s = ([b] ++ (byteElements fuel s.take).1, (byteElements fuel s.take).2) := by
        rw [byteElements]
        simp only [kind, element, if_true]
      have next : s.take.cursor.Facing false (bytesText rest ++ 0x5d :: tail) := by
        have facing := after.facing blank
        split at facing <;> exact facing
      have later := ih next (Nat.lt_of_succ_lt_succ enough)
      rw [step]
      exact ⟨by simp [later.1], later.2.1, later.2.2⟩

theorem State.enough {s : State} {fresh : Bool} {text : Bytes} (facing : s.cursor.Facing fresh text) {n : Nat}
    (bound : n ≤ text.length) : n < s.rounds :=
  Nat.lt_succ_of_le (Nat.le_trans bound facing.length_le)

-- The cells are looked at in a width that need not be that of their array.
theorem array_read (t : Token) (width : Width) {sight : Width} {cs : List CellView} (spelled : ∀ c ∈ cs, c.Spelled sight)
    {s : State} {tail : Bytes} (facing : s.cursor.Facing false (cellsText cs ++ 0x3e :: tail)) :
    Outcome (∀ c ∈ cs, c.Plain) s (array t width s).2
      ((array t width s).1.cells.map (Cell.view sight) = cs ∧ (array t width s).2.cursor.At tail) := by
  have length : cs.length ≤ (cellsText cs).length := by
    have pieces : ∀ p ∈ cs.map CellView.text, p ≠ [] := by
      intro p member
      obtain ⟨c, present, rfl⟩ := List.mem_map.mp member
      exact cell_text_ne_nil (spelled c present)
    have pieces := length_join (utf8 " ") pieces
    rwa [List.length_map] at pieces
  have bound : cs.length < s.rounds := by
    refine State.enough facing ?_
    rw [List.length_append]
    omega
  exact cells_read spelled facing bound

theorem bits_reads (fresh : Bool) (tail : Bytes) : Reads fresh .directive tail (utf8 "/bits/") :=
  .intro rfl rfl ⟨0x2f, rfl, rfl⟩

theorem width_decimal (width : Width) : width? (Bytes.decimal width.bits) = some width := by
  cases width <;> rfl

theorem decimal_name (width : Width) : IsName (Bytes.decimal width.bits) := by
  cases width <;> exact ⟨by decide, by decide, by decide +kernel⟩

def ReadsArray (width sight : Width) (cs : List CellView) (found : Option Value) : Prop :=
  ∃ a, found = some (.array a) ∧ a.width = width ∧ a.cells.map (Cell.view sight) = cs

theorem wideArray_read (t : Token) {width sight : Width} {cs : List CellView} (spelled : ∀ c ∈ cs, c.Spelled sight)
    {s : State} {tail : Bytes} (stands : s.cursor.At (utf8 " " ++ (Bytes.decimal width.bits ++ (utf8 " " ++ (utf8 "<" ++
      (cellsText cs ++ 0x3e :: tail)))))) :
    Outcome (∀ c ∈ cs, c.Plain) s (wideArray t s).2
      (ReadsArray width sight cs (wideArray t s).1 ∧ (wideArray t s).2.cursor.At tail) := by
  have sized := stands.facing (by decide +kernel)
  have ends : Ends (utf8 " " ++ (utf8 "<" ++ (cellsText cs ++ 0x3e :: tail))) := by
    rintro b ⟨⟩
    decide
  obtain ⟨name, text, after⟩ :=
    State.read sized (.of_name (decimal_name width) ends fun fresh : false = true => nomatch fresh)
  have chosen : chosenWidth s = (width, s.take) := by
    simp only [chosenWidth, name, if_true, text_eq name (by decide), text, width_decimal]
  have opens := after.facing (by decide +kernel)
  obtain ⟨langle, -, inside⟩ := State.read opens (reads_mark .langle rfl false _)
  have read := array_read s.take.peek width spelled inside.facing_word
  have step : wideArray t s = (some (.array { (array s.take.peek width s.take.take).1 with
      range := ⟨t.start, (array s.take.peek width s.take.take).1.range.stop⟩ }), (array s.take.peek width s.take.take).2) := by
    rw [wideArray_eq, chosen, sizedArray_opened langle]
  rw [step]
  dsimp only
  refine (read.imp ?_).since rfl
  rintro ⟨views, stands⟩
  exact ⟨⟨_, rfl, rfl, views⟩, stands⟩

theorem cells_value {sight : Width} {cs : List CellView} (spelled : ∀ c ∈ cs, c.Spelled sight) {s : State} {fresh : Bool}
    {tail : Bytes} (facing : s.cursor.Facing fresh ((ValueView.array .w32 cs).text ++ tail)) :
    Outcome (∀ c ∈ cs, c.Plain) s (value s).2 (ReadsArray .w32 sight cs (value s).1 ∧ (value s).2.cursor.At tail) := by
  have whole : s.cursor.Facing fresh ([0x3c] ++ (cellsText cs ++ 0x3e :: tail)) := by
    simpa [ValueView.text, show utf8 "<" = [0x3c] from rfl, show utf8 ">" = [0x3e] from rfl] using facing
  obtain ⟨kind, -, inside⟩ := State.read whole (reads_mark .langle rfl fresh _)
  have read := array_read s.peek .w32 spelled inside.facing_word
  have step : value s = (some (.array (array s.peek .w32 s.take).1), (array s.peek .w32 s.take).2) := by
    rw [value]
    simp only [kind]
  rw [step]
  refine (read.imp ?_).since rfl
  rintro ⟨views, stands⟩
  exact ⟨⟨_, rfl, rfl, views⟩, stands⟩

theorem array_value {width sight : Width} {cs : List CellView} (spelled : ∀ c ∈ cs, c.Spelled sight) {s : State}
    {fresh : Bool} {tail : Bytes} (facing : s.cursor.Facing fresh ((ValueView.array width cs).text ++ tail)) :
    Outcome (∀ c ∈ cs, c.Plain) s (value s).2 (ReadsArray width sight cs (value s).1 ∧ (value s).2.cursor.At tail) := by
  by_cases usual : width = .w32
  · subst usual
    exact cells_value spelled facing
  have whole : s.cursor.Facing fresh (utf8 "/bits/" ++ (utf8 " " ++ (Bytes.decimal width.bits ++ (utf8 " " ++
      (utf8 "<" ++ (cellsText cs ++ 0x3e :: tail)))))) := by
    have text : (ValueView.array width cs).text =
        utf8 "/bits/ " ++ Bytes.decimal width.bits ++ utf8 " " ++ (utf8 "<" ++ cellsText cs ++ utf8 ">") := by
      cases width <;> first | rfl | exact absurd rfl usual
    simpa [text, show utf8 "/bits/ " = utf8 "/bits/" ++ utf8 " " from rfl, show utf8 ">" = [0x3e] from rfl] using facing
  obtain ⟨kind, lexeme, after⟩ := State.read whole (bits_reads fresh _)
  have read := wideArray_read s.peek spelled after
  have step : value s = wideArray s.peek s.take := by
    rw [value]
    simp only [kind, text_eq kind (by decide), lexeme, if_true]
  rw [step]
  exact read.since rfl

def Returns (v : ValueView) (s : State) (tail : Bytes) : Prop :=
  Outcome v.Plain s (value s).2 ((∃ w, (value s).1 = some w ∧ w.view = v.reread) ∧ (value s).2.cursor.At tail)

theorem string_returns {text tail : Bytes} {s : State} (facing : s.cursor.Facing false ((ValueView.string text).text ++ tail)) :
    Returns (.string text) s tail := by
  obtain ⟨kind, lexeme, after⟩ := State.read facing (.of_string text false tail)
  have step : value s = (some (.string s.peek.range (Printer.reread text)), s.take) := by
    rw [value]
    simp only [kind, text_eq kind (by decide), lexeme, ValueView.text, Printer.literal_string, if_true]
  rw [Returns, step]
  exact .clean trivial rfl ⟨⟨_, rfl, rfl⟩, after⟩

theorem bytes_returns {data tail : Bytes} {s : State} (facing : s.cursor.Facing false ((ValueView.bytes data).text ++ tail)) :
    Returns (.bytes data) s tail := by
  have whole : s.cursor.Facing false ([0x5b] ++ (bytesText data ++ 0x5d :: tail)) := by
    simpa [ValueView.text, show utf8 "[" = [0x5b] from rfl, show utf8 "]" = [0x5d] from rfl] using facing
  obtain ⟨kind, -, inside⟩ := State.read whole (reads_mark .lbracket rfl false _)
  have bound : data.length < s.take.rounds := by
    refine State.enough inside.facing_word ?_
    have nonempty : ∀ p ∈ data.map fun b => Bytes.hexPadded 2 b.toNat, p ≠ [] := by simp [Printer.hexPadded_byte]
    have pieces := length_join (utf8 " ") nonempty
    rw [List.length_map] at pieces
    rw [List.length_append]
    exact Nat.le_trans pieces (Nat.le_add_right _ _)
  obtain ⟨same, after, errors⟩ := byteElements_read inside.facing_word bound
  have step : value s = (some (.bytes ⟨s.peek.start, (byteElements s.take.rounds s.take).2.1⟩
      (byteElements s.take.rounds s.take).1), (byteElements s.take.rounds s.take).2.2) := by
    rw [value]
    simp only [kind]
  rw [Returns, step]
  exact .clean trivial errors ⟨⟨_, rfl, by simp [Value.view, same, ValueView.reread]⟩, after⟩

theorem array_returns {width : Width} {cs : List CellView} (spelled : ∀ c ∈ cs, c.Spelled width) {s : State} {tail : Bytes}
    (facing : s.cursor.Facing false ((ValueView.array width cs).text ++ tail)) : Returns (.array width cs) s tail := by
  refine (array_value spelled facing).imp ?_
  rintro ⟨⟨a, found, rfl, views⟩, stands⟩
  exact ⟨⟨_, found, congrArg (ValueView.array a.width) views⟩, stands⟩

theorem ref_returns {target : Target} (spelled : target.Spelled) (named : target ≠ .label []) {s : State} {tail : Bytes}
    (facing : s.cursor.Facing false ((ValueView.ref target).text ++ tail))
    (stop : ∀ l, target = .label l → ∀ b ∈ tail.head?, isNameByte b = false) : Returns (.ref target) s tail := by
  obtain ⟨kind, same, after⟩ := target_read spelled named facing stop
  have step : value s = (some (.ref (refOfToken s.peek)), s.take) := by
    rw [value]
    rcases kind with kind | kind <;> simp only [kind]
  rw [Returns, step]
  exact .clean named rfl ⟨⟨_, rfl, by rw [Value.view, same]; rfl⟩, after⟩

theorem value_read {v : ValueView} (spelled : v.Spelled) {s : State} {tail : Bytes}
    (facing : s.cursor.Facing false (v.text ++ tail))
    (stop : ∀ l, v = .ref (.label l) → ∀ b ∈ tail.head?, isNameByte b = false ∧ b ≠ 0x7b) :
    Returns v s tail ∨ ¬ v.Plain ∧ (value s).1 = none := by
  cases v with
  | string text => exact .inl (string_returns facing)
  | bytes data => exact .inl (bytes_returns facing)
  | array width cs => exact .inl (array_returns spelled facing)
  | ref target =>
    by_cases lone : target = .label []
    · subst lone
      obtain ⟨kind, -, -⟩ := State.read facing (.of_ampersand (stop [] rfl) false)
      refine .inr ⟨fun named => named rfl, ?_⟩
      rw [value]
      simp only [kind]
    · refine .inl (ref_returns spelled lone facing ?_)
      intro l label b first
      exact (stop l (congrArg _ label) b first).1

theorem reference_kind (rest : Bytes) : (reference rest).1 ≠ .comma ∧ (reference rest).1 ≠ .semicolon := by
  unfold reference
  split
  · dsimp only
    split <;> decide
  · dsimp only
    split <;> simp

theorem value_starts (v : ValueView) {s : State} {tail : Bytes} (facing : s.cursor.Facing false (v.text ++ tail)) :
    s.peek.kind ≠ .comma ∧ s.peek.kind ≠ .semicolon := by
  cases v with
  | string text =>
    rw [(State.read facing (.of_string text false tail)).1]
    decide
  | bytes data =>
    have kind : s.peek.kind = .lbracket := facing.kind rfl
    rw [kind]
    decide
  | array width cs =>
    cases width with
    | w32 =>
      have kind : s.peek.kind = .langle := facing.kind rfl
      rw [kind]
      decide
    | _ =>
      have kind : s.peek.kind = .directive := facing.kind rfl
      rw [kind]
      decide
  | ref target =>
    have starts : ∃ rest, (ValueView.ref target).text ++ tail = 0x26 :: rest := by
      cases target with
      | label l => exact ⟨l ++ tail, rfl⟩
      | path p => exact ⟨0x7b :: (p ++ utf8 "\x7d" ++ tail), rfl⟩
    obtain ⟨rest, text⟩ := starts
    rw [text] at facing
    have kind : s.peek.kind = (reference rest).1 := facing.kind rfl
    rw [kind]
    exact reference_kind rest

theorem values_none {s : State} (none : (value s).1 = none) (fuel : Nat) (stop : Position) :
    (values (fuel + 1) stop s).2.2 = (value s).2.report (value s).2.peek.range .expectedValue := by
  rw [values]
  split
  · rename_i equal
    rw [equal]
  · rename_i equal
    rw [equal] at none
    cases none

theorem values_last {s after : State} {v : Value} (first : value s = (some v, after)) (ends : after.peek.kind ≠ .comma)
    (fuel : Nat) (stop : Position) : values (fuel + 1) stop s = ([v], v.range.stop, after) := by
  rw [values]
  simp only [first, ends, if_false]

theorem values_more {s after : State} {v : Value} (first : value s = (some v, after)) (comma : after.peek.kind = .comma)
    (fuel : Nat) (stop : Position) : values (fuel + 1) stop s =
      (v :: (values fuel after.peek.stop after.take).1, (values fuel after.peek.stop after.take).2) := by
  rw [values]
  simp only [first, comma, if_true]

theorem values_grow (fuel : Nat) (stop : Position) (s : State) :
    (value s).2.errors <:+ (values (fuel + 1) stop s).2.2.errors := by
  rw [values]
  split
  · rename_i after equal
    rw [equal]
    exact List.suffix_cons _ _
  · rename_i v after equal
    rw [equal]
    split
    · exact (values_yields fuel after.peek.stop after.take).1
    · exact List.suffix_rfl

theorem valuesText_cons (v : ValueView) (rest : List ValueView) :
    valuesText (v :: rest) = v.text ++ ((if rest = [] then [] else utf8 ", ") ++ valuesText rest) := by
  simp [valuesText, join_cons]

-- A comma after a label is part of it, and what follows is then neither a comma nor the end.
theorem swallowed_comma {l : Bytes} (spelled : (Target.label l).Spelled) (w : ValueView) {s : State} {tail : Bytes}
    (facing : s.cursor.Facing false ((ValueView.ref (.label l)).text ++ (utf8 ", " ++ (w.text ++ tail)))) (fuel : Nat)
    (stop : Position) : (values (fuel + 1) stop s).2.2.peek.kind ≠ .semicolon := by
  have proper : IsLabelRef (l ++ [0x2c]) := by
    refine ⟨by simp, ?_⟩
    intro b member
    rcases List.mem_append.mp member with old | comma
    · rcases spelled with rfl | known
      · cases old
      · exact known.2 b old
    · rw [List.mem_singleton.mp comma]
      rfl
  have whole : s.cursor.Facing false ((0x26 :: (l ++ [0x2c])) ++ ([0x20] ++ (w.text ++ tail))) := by
    simpa [ValueView.text, Target.text, show utf8 ", " = [0x2c, 0x20] from rfl] using facing
  have blank : ∀ b ∈ ([0x20] ++ (w.text ++ tail)).head?, isNameByte b = false := by
    rintro b ⟨⟩
    rfl
  obtain ⟨kind, -, after⟩ := State.read whole (.of_labelRef proper blank false)
  have first : value s = (some (.ref (refOfToken s.peek)), s.take) := by
    rw [value]
    simp only [kind]
  obtain ⟨comma, semicolon⟩ := value_starts w (after.facing (by simp [isBlank]))
  rw [values_last first comma]
  exact semicolon

theorem values_read {vs : List ValueView} (nonempty : vs ≠ []) (spelled : ∀ v ∈ vs, v.Spelled) {fuel : Nat} (stop : Position)
    {s : State} {tail : Bytes} (facing : s.cursor.Facing false (valuesText vs ++ 0x3b :: tail)) (enough : vs.length ≤ fuel) :
    Outcome ((∀ v ∈ vs, v.Plain) ∧ Apart vs) s (values fuel stop s).2.2
        ((values fuel stop s).1.map Value.view = vs.map ValueView.reread ∧
          (values fuel stop s).2.2.cursor.At (0x3b :: tail)) ∨
      ¬ ((∀ v ∈ vs, v.Plain) ∧ Apart vs) ∧ (values fuel stop s).2.2.peek.kind ≠ .semicolon := by
  induction vs generalizing fuel stop s with
  | nil => exact absurd rfl nonempty
  | cons v rest ih =>
    cases fuel with
    | zero => exact absurd enough (Nat.not_succ_le_zero _)
    | succ fuel =>
      have text : valuesText (v :: rest) ++ 0x3b :: tail =
          v.text ++ ((if rest = [] then [] else utf8 ", ") ++ (valuesText rest ++ 0x3b :: tail)) := by
        rw [valuesText_cons, List.append_assoc, List.append_assoc]
      rw [text] at facing
      have grows := values_grow fuel stop s
      have here := spelled v List.mem_cons_self
      have flawed : ¬ v.Plain → ¬ ((∀ w ∈ v :: rest, w.Plain) ∧ Apart (v :: rest)) :=
        fun bad all => bad (all.1 v List.mem_cons_self)
      by_cases swallowed : rest ≠ [] ∧ ∃ l, v = .ref (.label l)
      · obtain ⟨more, l, rfl⟩ := swallowed
        cases rest with
        | nil => exact absurd rfl more
        | cons w rest =>
          refine .inr ⟨fun all => all.2.1 l rfl, ?_⟩
          have whole : s.cursor.Facing false ((ValueView.ref (.label l)).text ++ (utf8 ", " ++ (w.text ++
              ((if rest = [] then [] else utf8 ", ") ++ (valuesText rest ++ 0x3b :: tail))))) := by
            simpa [valuesText_cons] using facing
          exact swallowed_comma here w whole fuel stop
      · have follows : ∀ l, v = .ref (.label l) →
            ∀ b ∈ ((if rest = [] then [] else utf8 ", ") ++ (valuesText rest ++ 0x3b :: tail)).head?,
              isNameByte b = false ∧ b ≠ 0x7b := by
          intro l label
          have last : rest = [] := by
            by_contra more
            exact swallowed ⟨more, l, label⟩
          subst last
          simp [valuesText, Bytes.join]
          decide
        rcases value_read here facing follows with read | ⟨bad, none⟩
        · cases read with
          | noted bad more => exact .inl (.noted (flawed bad) (Nat.lt_of_lt_of_le more grows.length_le))
          | clean plain same result =>
            obtain ⟨⟨w, found, view⟩, stands⟩ := result
            generalize equal : value s = next at same found stands
            obtain ⟨first, after⟩ := next
            subst found
            cases rest with
            | nil =>
              have ends : after.cursor.Facing false ([0x3b] ++ tail) := stands.facing_word
              obtain ⟨kind, -, -⟩ := State.read ends (reads_mark .semicolon rfl false _)
              rw [values_last equal (by rw [kind]; decide)]
              exact .inl (.clean ⟨by simpa using plain, trivial⟩ same ⟨by simp [view], stands⟩)
            | cons u rest =>
              have comma : after.cursor.Facing false ([0x2c] ++ ([0x20] ++ (valuesText (u :: rest) ++ 0x3b :: tail))) :=
                stands.facing_word
              obtain ⟨kind, -, next⟩ := State.read comma (reads_mark .comma rfl false _)
              have apart : ∀ l, v ≠ .ref (.label l) := fun l label => swallowed ⟨by simp, l, label⟩
              have split : ((∀ x ∈ v :: u :: rest, x.Plain) ∧ Apart (v :: u :: rest)) ↔
                  ((∀ x ∈ u :: rest, x.Plain) ∧ Apart (u :: rest)) := by
                rw [List.forall_mem_cons, Apart]
                exact ⟨fun all => ⟨all.1.2, all.2.2⟩, fun all => ⟨⟨plain, all.1⟩, apart, all.2⟩⟩
              have later := ih (by simp) (fun x member => spelled x (List.mem_cons_of_mem _ member)) after.peek.stop
                (next.facing (by simp [isBlank])) (Nat.le_of_succ_le_succ enough)
              rw [values_more equal kind, split]
              rcases later with read | ⟨bad, kind⟩
              · refine .inl ((read.since same).imp ?_)
                rintro ⟨views, stands⟩
                exact ⟨by simpa [view] using views, stands⟩
              · exact .inr ⟨bad, kind⟩
        · refine .inl (.noted (flawed bad) ?_)
          rw [values_none none]
          exact Nat.lt_succ_of_le (value_yields s).1.length_le

theorem value_text_ne_nil {v : ValueView} : v.text ≠ [] := by
  cases v with
  | string text => simp [ValueView.text, Printer.string_eq]
  | bytes data => simp [ValueView.text, show utf8 "[" = [0x5b] from rfl]
  | array width cs => cases width <;> simp [ValueView.text, show utf8 "<" = [0x3c] from rfl]
  | ref target => cases target <;> simp [ValueView.text, Target.text, show utf8 "&\x7b" = [0x26, 0x7b] from rfl]

theorem property_read (found : List Label) (name : Token) {vs : List ValueView} (nonempty : vs ≠ [])
    (spelled : ∀ v ∈ vs, v.Spelled) {s : State} {tail : Bytes}
    (facing : s.cursor.Facing false (valuesText vs ++ 0x3b :: tail)) :
    Outcome ((∀ v ∈ vs, v.Plain) ∧ Apart vs) s (property found name s).2
      ((property found name s).1.setting = ⟨name.text, vs.map ValueView.reread⟩ ∧
        (property found name s).2.cursor.At tail) := by
  have bound : vs.length ≤ s.rounds := by
    have pieces : ∀ p ∈ vs.map ValueView.text, p ≠ [] := by
      intro p member
      obtain ⟨v, -, rfl⟩ := List.mem_map.mp member
      exact value_text_ne_nil
    have pieces := length_join (utf8 ", ") pieces
    rw [List.length_map] at pieces
    refine Nat.le_of_lt (State.enough facing ?_)
    rw [List.length_append]
    exact Nat.le_trans pieces (Nat.le_add_right _ _)
  have read := values_read nonempty spelled name.stop facing bound
  have grown := (values_yields s.rounds name.stop s).1
  rw [property_eq]
  generalize values s.rounds name.stop s = result at read grown
  obtain ⟨written, stop, after⟩ := result
  dsimp only at read grown ⊢
  rcases read with read | ⟨bad, kind⟩
  · cases read with
    | clean sound same result =>
      obtain ⟨views, stands⟩ := result
      have ends : after.cursor.Facing false ([0x3b] ++ tail) := stands.facing_word
      obtain ⟨kind, -, done⟩ := State.read ends (reads_mark .semicolon rfl false _)
      have step : ended stop after = (after.peek.stop, after.take) := by simp only [ended, kind, if_true]
      rw [step]
      exact .clean sound same ⟨by rw [PropertyDecl.setting, propertyDecl, views], done⟩
    | noted bad more => exact .noted bad (Nat.lt_of_lt_of_le more (ended_grows stop after).length_le)
  · exact .noted bad (Nat.lt_of_le_of_lt grown.length_le (ended_missing kind))

theorem isPreproc_mark {b : UInt8} (mark : b = 0x3b ∨ b = 0x3d ∨ b = 0x7b) (rest : Bytes) : isPreproc (b :: rest) = false := by
  rcases mark with rfl | rfl | rfl <;> rfl

-- The first name on a line is a name unless it spells a directive.
theorem name_read {word rest : Bytes} (proper : IsName word) (ends : Ends rest) (silent : isPreproc rest = false) {s : State}
    (facing : s.cursor.Facing true (word ++ rest)) : IsDirective word ∧ s.peek.kind = .preproc ∨
      ¬ IsDirective word ∧ s.peek.kind = .name ∧ s.peek.text = word ∧ s.take.cursor.At rest := by
  by_cases directive : IsDirective word
  · exact .inl ⟨directive, facing.directive directive ends.stop⟩
  · obtain ⟨kind, lexeme, after⟩ := State.read facing (.of_name proper ends fun _ => ⟨directive, silent⟩)
    exact .inr ⟨directive, kind, by rw [text_eq kind (by decide), lexeme], after⟩

theorem preproc_noted {s : State} (kind : s.peek.kind = .preproc) (fuel : Nat) :
    s.errors.length < (statement (fuel + 1) s).2.errors.length := by
  have step : statement (fuel + 1) s = (none, preprocessor s.peek s) := by
    rw [statement]
    simp only [kind]
  rw [step]
  exact Nat.lt_succ_self _

theorem statement_name {s : State} (kind : s.peek.kind = .name) (fuel : Nat) :
    statement (fuel + 1) s = declared fuel [] s.peek s.take := by
  rw [statement_eq (.inr kind), labels_none (by rw [kind]; decide), declaration, if_pos kind]

theorem bare_read {name tail : Bytes} (proper : IsName name) {s : State}
    (facing : s.cursor.Facing true (name ++ 0x3b :: tail)) (fuel : Nat) :
    Outcome (¬ IsDirective name) s (statement (fuel + 1) s).2 (∃ decl, (statement (fuel + 1) s).1 = some (.property decl) ∧
      decl.setting = ⟨name, []⟩ ∧ (statement (fuel + 1) s).2.cursor.At tail) := by
  have ends : Ends (0x3b :: tail) := by
    rintro b ⟨⟩
    decide
  rcases name_read proper ends (isPreproc_mark (.inl rfl) tail) facing with ⟨bad, kind⟩ | ⟨plain, kind, text, after⟩
  · exact .noted (fun good => good bad) (preproc_noted kind fuel)
  · have mark : s.take.cursor.Facing false ([0x3b] ++ tail) := after.facing_word
    obtain ⟨semicolon, -, done⟩ := State.read mark (reads_mark .semicolon rfl false _)
    rw [statement_name kind, declared]
    simp only [semicolon]
    exact .clean plain rfl ⟨_, rfl, by simp [PropertyDecl.setting, propertyDecl, text], done⟩

theorem valued_read {name tail : Bytes} {vs : List ValueView} (proper : IsName name) (nonempty : vs ≠ [])
    (spelled : ∀ v ∈ vs, v.Spelled) {s : State}
    (facing : s.cursor.Facing true (name ++ ([0x20] ++ ([0x3d] ++ ([0x20] ++ (valuesText vs ++ 0x3b :: tail)))))) (fuel : Nat) :
    Outcome (Setting.mk name vs).Plain s (statement (fuel + 1) s).2
      (∃ decl, (statement (fuel + 1) s).1 = some (.property decl) ∧ decl.setting = (Setting.mk name vs).reread ∧
        (statement (fuel + 1) s).2.cursor.At tail) := by
  have ends : Ends ([0x20] ++ ([0x3d] ++ ([0x20] ++ (valuesText vs ++ 0x3b :: tail)))) := by
    rintro b ⟨⟩
    decide
  rcases name_read proper ends (isPreproc_mark (.inr (.inl rfl)) _) facing with ⟨bad, kind⟩ | ⟨plain, kind, text, after⟩
  · exact .noted (fun good => good.1 bad) (preproc_noted kind fuel)
  · obtain ⟨equal, -, assigned⟩ := State.read (after.facing (by simp [isBlank])) (reads_mark .equal rfl false _)
    have read := property_read [] s.peek nonempty spelled (assigned.facing (by simp [isBlank]))
    have step : statement (fuel + 1) s =
        (some (.property (property [] s.peek s.take.take).1), (property [] s.peek s.take.take).2) := by
      rw [statement_name kind, declared]
      simp only [equal]
    have first : Outcome (¬ IsDirective name) s s.take.take True := .clean plain rfl trivial
    have grows : s.take.take.errors <:+ (property [] s.peek s.take.take).2.errors :=
      (property_yields [] (by rw [text]; exact proper) s.take.take).1
    have both : (Setting.mk name vs).Plain ↔ ¬ IsDirective name ∧ ((∀ v ∈ vs, v.Plain) ∧ Apart vs) := by
      rw [Setting.Plain]
    have whole := first.then (fun _ => read) grows both
    rw [step]
    dsimp only
    refine whole.imp ?_
    rintro ⟨setting, stands⟩
    exact ⟨_, rfl, by rw [setting, text]; rfl, stands⟩

theorem setting_read {p : Setting} (spelled : p.Spelled) {s : State} {tail : Bytes}
    (facing : s.cursor.Facing true (p.text ++ tail)) (fuel : Nat) :
    Outcome p.Plain s (statement (fuel + 1) s).2 (∃ decl, (statement (fuel + 1) s).1 = some (.property decl) ∧
      decl.setting = p.reread ∧ (statement (fuel + 1) s).2.cursor.At tail) := by
  obtain ⟨name, values⟩ := p
  obtain ⟨proper, inside⟩ := spelled
  cases values with
  | nil =>
    have whole : s.cursor.Facing true (name ++ 0x3b :: tail) := by
      simpa [Setting.text, show utf8 ";" = [0x3b] from rfl] using facing
    have same : (Setting.mk name []).Plain ↔ ¬ IsDirective name := by simp [Setting.Plain, Apart]
    rw [same]
    exact bare_read proper whole fuel
  | cons v vs =>
    refine valued_read proper (by simp) inside ?_ fuel
    simpa [Setting.text, show utf8 ";" = [0x3b] from rfl, show utf8 " = " = [0x20, 0x3d, 0x20] from rfl] using facing

end Parser
end DeviceTree
