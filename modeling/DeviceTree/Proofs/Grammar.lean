import DeviceTree.Proofs.Wording

namespace DeviceTree

inductive Terminal where
  | preproc
  | directive (name : Bytes)
  | name (text : Bytes)
  | label
  | string (literal : Bytes)
  | char
  | ref
  | pathRef
  | group (text : Bytes)
  | mark (kind : TokenKind)
  deriving DecidableEq, Repr

def Token.terminal (t : Token) : Terminal :=
  match t.kind with
  | .preproc => .preproc
  | .directive => .directive t.text
  | .name => .name t.text
  | .label => .label
  | .string => .string t.text
  | .char => .char
  | .ref => .ref
  | .pathRef => .pathRef
  | kind => .mark kind

def Terminal.kind : Terminal → TokenKind
  | .preproc => .preproc
  | .directive _ => .directive
  | .name _ => .name
  | .label => .label
  | .string _ => .string
  | .char => .char
  | .ref => .ref
  | .pathRef => .pathRef
  | .group _ => .lparen
  | .mark kind => kind

theorem Token.terminal_kind (t : Token) : t.terminal.kind = t.kind := by
  unfold Token.terminal
  split <;> simp_all [Terminal.kind]

def Cursor.terminal (c : Cursor) : Terminal × Cursor :=
  let (t, after) := c.next
  let group := Group.scan 1 after.rest
  if t.kind = .lparen && group.closed then (.group (0x28 :: group.text), after.advance group.text.length)
  else (t.terminal, after)

def Lexer.terminals : (fuel : Nat) → Cursor → List Terminal
  | 0, _ => []
  | fuel + 1, c => if c.next.1.kind = .eof then [] else c.terminal.1 :: terminals fuel c.terminal.2

def terminals (source : Bytes) : List Terminal := Lexer.terminals source.length (.ofSource source)

namespace Grammar

def IsCell : Terminal → Prop
  | .name _ | .char | .ref | .pathRef | .group _ => True
  | _ => False

def IsArray (ts : List Terminal) : Prop :=
  ∃ cells, ts = .mark .langle :: cells ++ [.mark .rangle] ∧ ∀ c ∈ cells, IsCell c

def IsHex : Terminal → Prop
  | .name text => text.length % 2 = 0 ∧ ∀ b ∈ text, Bytes.isHexDigit b = true
  | _ => False

def IsByteString (ts : List Terminal) : Prop :=
  ∃ elements, ts = .mark .lbracket :: elements ++ [.mark .rbracket] ∧ ∀ e ∈ elements, IsHex e

inductive IsValue : List Terminal → Prop where
  | string {raw : Bytes} (escapes : (Parser.literal raw).2 = true) : IsValue [.string raw]
  | array {ts : List Terminal} (array : IsArray ts) : IsValue ts
  | bytes {ts : List Terminal} (bytes : IsByteString ts) : IsValue ts
  | ref : IsValue [.ref]
  | pathRef : IsValue [.pathRef]
  | bits {ts : List Terminal} (array : IsArray ts) : IsValue (.directive (utf8 "/bits/") :: ts)
  | width {size : Bytes} {ts : List Terminal} (number : (Parser.width? size).isSome = true) (array : IsArray ts) :
      IsValue (.directive (utf8 "/bits/") :: .name size :: ts)

inductive IsValues : List Terminal → Prop where
  | last {v : List Terminal} (value : IsValue v) : IsValues v
  | comma {v more : List Terminal} (value : IsValue v) (rest : IsValues more) : IsValues (v ++ .mark .comma :: more)

def IsLabels (ts : List Terminal) : Prop := ∀ t ∈ ts, t = .label

def IsNode : Terminal → Prop
  | .name _ | .ref | .pathRef => True
  | _ => False

inductive IsStatement : List Terminal → Prop where
  | preproc : IsStatement [.preproc]
  | deleteNode {victim : Terminal} (node : IsNode victim) :
      IsStatement [.directive (utf8 "/delete-node/"), victim, .mark .semicolon]
  | deleteProperty {name : Bytes} : IsStatement [.directive (utf8 "/delete-property/"), .name name, .mark .semicolon]
  | omitted {ts : List Terminal} (statement : IsStatement ts) : IsStatement (.directive (utf8 "/omit-if-no-ref/") :: ts)
  | node {labels : List Terminal} {name : Bytes} {parts : List (List Terminal)} (labelled : IsLabels labels)
      (statements : ∀ part ∈ parts, IsStatement part) :
      IsStatement (labels ++ [.name name, .mark .lbrace] ++ parts.flatten ++ [.mark .rbrace, .mark .semicolon])
  | flag {labels : List Terminal} {name : Bytes} (labelled : IsLabels labels) :
      IsStatement (labels ++ [.name name, .mark .semicolon])
  | property {labels : List Terminal} {name : Bytes} {vs : List Terminal} (labelled : IsLabels labels)
      (values : IsValues vs) : IsStatement (labels ++ [.name name, .mark .equal] ++ vs ++ [.mark .semicolon])

def IsHeading : Terminal → Prop
  | .mark .slash | .name _ | .ref | .pathRef => True
  | _ => False

inductive IsItem : List Terminal → Prop where
  | preproc : IsItem [.preproc]
  | version : IsItem [.directive (utf8 "/dts-v1/"), .mark .semicolon]
  | plugin : IsItem [.directive (utf8 "/plugin/"), .mark .semicolon]
  | reservation {args : List (List Terminal)} (few : args.length ≤ 2)
      (arguments : ∀ arg ∈ args, (∃ text, arg = [.name text]) ∨ IsArray arg) :
      IsItem (.directive (utf8 "/memreserve/") :: args.flatten ++ [.mark .semicolon])
  | inclusion {raw : Bytes} : IsItem [.directive (utf8 "/include/"), .string raw]
  | deleteNode {victim : Terminal} (node : IsNode victim) :
      IsItem [.directive (utf8 "/delete-node/"), victim, .mark .semicolon]
  | omitted {ts : List Terminal} (item : IsItem ts) : IsItem (.directive (utf8 "/omit-if-no-ref/") :: ts)
  | node {labels : List Terminal} {heading : Terminal} {parts : List (List Terminal)} (labelled : IsLabels labels)
      (heads : IsHeading heading) (statements : ∀ part ∈ parts, IsStatement part) :
      IsItem (labels ++ [heading, .mark .lbrace] ++ parts.flatten ++ [.mark .rbrace, .mark .semicolon])

def IsDocument (ts : List Terminal) : Prop := ∃ parts : List (List Terminal), ts = parts.flatten ∧ ∀ part ∈ parts, IsItem part

end Grammar

namespace Cursor

theorem advance_rest (n : Nat) (c : Cursor) : (c.advance n).rest = c.rest.drop n := by
  induction n generalizing c with
  | zero => rfl
  | succ n ih =>
    unfold advance
    split
    · rename_i empty
      rw [empty, List.drop_nil]
    · rename_i b rest whole
      rw [ih, whole, List.drop_succ_cons]

theorem next_shorter {c : Cursor} (more : c.next.1.kind ≠ .eof) : c.next.2.rest.length < c.rest.length := by
  have gap : c.skipGap.rest.length ≤ c.rest.length := by
    rw [skipGap, advance_rest, List.length_drop]
    exact Nat.sub_le _ _
  unfold next at more ⊢
  dsimp only at more ⊢
  split at more
  · exact absurd rfl more
  · rename_i b rest whole
    simp only [whole, List.length_cons] at gap ⊢
    rw [advance_rest, whole, List.length_drop, List.length_cons]
    omega

theorem terminal_kind (c : Cursor) : c.terminal.1.kind = c.next.1.kind := by
  unfold terminal
  dsimp only
  split
  · rename_i group
    simp only [Bool.and_eq_true, decide_eq_true_eq] at group
    exact group.1.symm
  · exact c.next.1.terminal_kind

theorem terminal_shorter {c : Cursor} (more : c.next.1.kind ≠ .eof) : c.terminal.2.rest.length < c.rest.length := by
  have shorter := next_shorter more
  unfold terminal
  dsimp only
  split
  · rw [advance_rest, List.length_drop]
    omega
  · exact shorter

def Delivers : Cursor → List Terminal → Cursor → Prop
  | c, [], stop => c = stop
  | c, t :: ts, stop => c.next.1.kind ≠ .eof ∧ c.terminal.1 = t ∧ Delivers c.terminal.2 ts stop

theorem Delivers.kind {c stop : Cursor} {t : Terminal} {ts : List Terminal} (delivers : c.Delivers (t :: ts) stop) :
    t.kind = c.next.1.kind := by
  rw [← delivers.2.1]
  exact c.terminal_kind

theorem delivers_append {c stop : Cursor} {front back : List Terminal} :
    c.Delivers (front ++ back) stop ↔ ∃ mid, c.Delivers front mid ∧ mid.Delivers back stop := by
  induction front generalizing c with
  | nil => simp [Delivers]
  | cons t front ih =>
    simp only [List.cons_append, Delivers, ih]
    constructor
    · rintro ⟨more, here, mid, first, second⟩
      exact ⟨mid, ⟨more, here, first⟩, second⟩
    · rintro ⟨mid, ⟨more, here, first⟩, second⟩
      exact ⟨more, here, mid, first, second⟩

theorem Delivers.length_le {c stop : Cursor} {ts : List Terminal} (delivers : c.Delivers ts stop) :
    stop.rest.length + ts.length ≤ c.rest.length := by
  induction ts generalizing c with
  | nil =>
    cases delivers
    exact Nat.le_refl _
  | cons t ts ih =>
    have shorter := terminal_shorter delivers.1
    have later := ih delivers.2.2
    rw [List.length_cons]
    omega

theorem terminals_delivered {fuel : Nat} {c : Cursor} (enough : c.rest.length ≤ fuel) :
    ∃ stop, c.Delivers (Lexer.terminals fuel c) stop ∧ stop.next.1.kind = .eof := by
  induction fuel generalizing c with
  | zero =>
    refine ⟨c, rfl, ?_⟩
    by_contra more
    have shorter := next_shorter more
    omega
  | succ fuel ih =>
    unfold Lexer.terminals
    split
    · rename_i ends
      exact ⟨c, rfl, ends⟩
    · rename_i more
      have shorter := terminal_shorter more
      obtain ⟨stop, delivers, ends⟩ := ih (c := c.terminal.2) (by omega)
      exact ⟨stop, ⟨more, rfl, delivers⟩, ends⟩

theorem Delivers.unique {c stop stop' : Cursor} {ts ts' : List Terminal} (one : c.Delivers ts stop)
    (ends : stop.next.1.kind = .eof) (two : c.Delivers ts' stop') (ends' : stop'.next.1.kind = .eof) : ts = ts' := by
  induction ts generalizing c ts' with
  | nil =>
    cases one
    cases ts' with
    | nil => rfl
    | cons t ts' => exact absurd ends two.1
  | cons t ts ih =>
    cases ts' with
    | nil =>
      cases two
      exact absurd ends' one.1
    | cons t' ts' => rw [← one.2.1, ← two.2.1, ih one.2.2 two.2.2]

end Cursor

namespace Parser

def State.Clean (s : State) : Prop := ∀ e ∈ s.errors, e.problem.ignored = true

theorem State.Clean.earlier {s after : State} (clean : after.Clean) (grows : s.errors <:+ after.errors) : s.Clean :=
  fun e member => clean e (grows.subset member)

theorem State.report_dirty (s : State) (range : Range) {problem : Problem} (mistake : problem.ignored = false) :
    ¬ (s.report range problem).Clean := by
  intro clean
  have ignored := clean _ List.mem_cons_self
  rw [mistake] at ignored
  cases ignored

-- Between the two states exactly a word of the language is read, or a mistake is recorded.
structure Accepts (s after : State) (language : List Terminal → Prop) : Prop where
  sound : after.Clean → s.Clean ∧ ∃ ts, s.cursor.Delivers ts after.cursor ∧ language ts
  complete : ∀ ts stop, s.Clean → s.cursor.Delivers ts stop → language ts → after.Clean ∧ after.cursor = stop

namespace Accepts

variable {s mid after : State} {L M : List Terminal → Prop}

-- The languages need agree only on what comes.
theorem congr (accepts : Accepts s after L) (same : ∀ ts stop, s.cursor.Delivers ts stop → (L ts ↔ M ts)) :
    Accepts s after M where
  sound clean := by
    obtain ⟨before, ts, delivers, word⟩ := accepts.sound clean
    exact ⟨before, ts, delivers, (same ts _ delivers).mp word⟩
  complete ts stop clean delivers word := accepts.complete ts stop clean delivers ((same ts stop delivers).mpr word)

theorem done (s : State) : Accepts s s (· = []) where
  sound clean := ⟨clean, [], rfl, rfl⟩
  complete ts stop clean delivers word := by
    subst word
    exact ⟨clean, delivers⟩

theorem shift (next : State) {t : Terminal} (more : s.peek.kind ≠ .eof) (seen : s.cursor.terminal = (t, next.cursor))
    (clean : next.Clean ↔ s.Clean) (rest : Accepts next after fun ts => L (t :: ts)) (nonempty : ¬ L []) :
    Accepts s after L where
  sound final := by
    obtain ⟨before, ts, delivers, word⟩ := rest.sound final
    refine ⟨clean.mp before, t :: ts, ⟨more, by rw [seen], ?_⟩, word⟩
    rw [seen]
    exact delivers
  complete ts stop start delivers word := by
    cases ts with
    | nil => exact absurd word nonempty
    | cons t' ts =>
      obtain ⟨-, same, delivers⟩ := delivers
      rw [seen] at same delivers
      subst same
      exact rest.complete ts stop (clean.mpr start) delivers word

theorem fail (dirty : ¬ after.Clean) (none : ∀ ts, ¬ L (s.cursor.terminal.1 :: ts)) (nonempty : ¬ L []) :
    Accepts s after L where
  sound clean := absurd clean dirty
  complete ts stop _ delivers word := by
    cases ts with
    | nil => exact absurd word nonempty
    | cons t ts =>
      rw [← delivers.2.1] at word
      exact absurd word (none ts)

theorem seq (first : Accepts s mid L) (nonempty : ¬ L []) (grows : mid.errors <:+ after.errors)
    (second : mid.Clean → mid.cursor.rest.length < s.cursor.rest.length → Accepts mid after M) :
    Accepts s after fun ts => ∃ front back, ts = front ++ back ∧ L front ∧ M back where
  sound clean := by
    have between := clean.earlier grows
    obtain ⟨start, front, delivers, word⟩ := first.sound between
    have shorter : mid.cursor.rest.length < s.cursor.rest.length := by
      have length := delivers.length_le
      have positive := List.length_pos_iff.mpr fun empty => nonempty (empty ▸ word)
      omega
    obtain ⟨-, back, delivers', word'⟩ := (second between shorter).sound clean
    exact ⟨start, front ++ back, Cursor.delivers_append.mpr ⟨_, delivers, delivers'⟩, front, back, rfl, word, word'⟩
  complete ts stop start delivers word := by
    obtain ⟨front, back, rfl, one, two⟩ := word
    obtain ⟨place, delivers, delivers'⟩ := Cursor.delivers_append.mp delivers
    obtain ⟨clean, rfl⟩ := first.complete front place start delivers one
    have shorter : mid.cursor.rest.length < s.cursor.rest.length := by
      have length := delivers.length_le
      have positive := List.length_pos_iff.mpr fun empty => nonempty (empty ▸ one)
      omega
    exact (second clean shorter).complete back stop clean delivers' two

theorem take {t : Terminal} (seen : s.peek.terminal = t) (proper : t ≠ .mark .eof ∧ t ≠ .mark .lparen)
    (rest : Accepts s.take after fun ts => L (t :: ts)) (nonempty : ¬ L []) : Accepts s after L := by
  have more : s.peek.kind ≠ .eof := fun kind => proper.1 (by rw [← seen, Token.terminal, kind])
  have plain : s.cursor.next.1.kind ≠ .lparen := fun kind => proper.2 (by
    rw [← seen, Token.terminal, show s.peek.kind = .lparen from kind])
  refine shift s.take more ?_ Iff.rfl rest nonempty
  rw [← seen]
  simp only [Cursor.terminal, plain, decide_false, Bool.false_and, Bool.false_eq_true, if_false]
  rfl

theorem refuse (dirty : ¬ after.Clean) (none : ∀ ts, ¬ L (s.peek.terminal :: ts))
    (groups : s.peek.kind = .lparen → ∀ text ts, ¬ L (.group text :: ts)) (nonempty : ¬ L []) : Accepts s after L := by
  refine fail dirty (fun ts => ?_) nonempty
  unfold Cursor.terminal
  dsimp only
  split
  · rename_i group
    simp only [Bool.and_eq_true, decide_eq_true_eq] at group
    exact groups group.1 _ ts
  · exact none ts

end Accepts

theorem State.take_shorter {s : State} (more : s.peek.kind ≠ .eof) :
    s.take.cursor.rest.length < s.cursor.rest.length :=
  Cursor.next_shorter more

theorem State.rounds_enough (s : State) : s.cursor.rest.length < s.rounds := Nat.lt_succ_self _

open Grammar

theorem semicolon_accepts (stop : Position) (s : State) : Accepts s (semicolon stop s).2 (· = [.mark .semicolon]) := by
  unfold semicolon
  split
  · rename_i kind
    refine .take (t := .mark .semicolon) (by simp [Token.terminal, kind]) (by simp) ?_ (by simp)
    exact (Accepts.done s.take).congr (by simp)
  · rename_i other
    refine .refuse (s.report_dirty _ rfl) (fun ts word => ?_) (by simp) (by simp)
    rw [List.cons.injEq] at word
    exact other (by rw [← s.peek.terminal_kind, word.1]; rfl)

def Until (element : Terminal → Prop) (close : TokenKind) (ts : List Terminal) : Prop :=
  ∃ elements, ts = elements ++ [.mark close] ∧ ∀ e ∈ elements, element e

section Until

variable {element : Terminal → Prop} {close : TokenKind}

theorem until_nil : ¬ Until element close [] := by
  rintro ⟨elements, equal, -⟩
  simp at equal

theorem until_cons {t : Terminal} {ts : List Terminal} :
    Until element close (t :: ts) ↔ t = .mark close ∧ ts = [] ∨ element t ∧ Until element close ts := by
  constructor
  · rintro ⟨elements, equal, all⟩
    cases elements with
    | nil =>
      simp only [List.nil_append, List.cons.injEq] at equal
      exact .inl equal
    | cons e elements =>
      simp only [List.cons_append, List.cons.injEq] at equal
      obtain ⟨rfl, rfl⟩ := equal
      exact .inr ⟨all t List.mem_cons_self, elements, rfl, fun e member => all e (List.mem_cons_of_mem _ member)⟩
  · rintro (⟨rfl, rfl⟩ | ⟨here, elements, rfl, all⟩)
    · exact ⟨[], rfl, nofun⟩
    · refine ⟨t :: elements, rfl, fun e member => ?_⟩
      rcases List.mem_cons.mp member with rfl | later
      · exact here
      · exact all e later

end Until

theorem isArray_cons {t : Terminal} {ts : List Terminal} :
    IsArray (t :: ts) ↔ t = .mark .langle ∧ Until IsCell .rangle ts := by
  simp only [IsArray, Until, List.cons_append, List.cons.injEq]
  constructor
  · rintro ⟨cells, ⟨rfl, rfl⟩, all⟩
    exact ⟨rfl, cells, rfl, all⟩
  · rintro ⟨rfl, cells, rfl, all⟩
    exact ⟨cells, ⟨rfl, rfl⟩, all⟩

theorem isArray_nil : ¬ IsArray [] := by
  rintro ⟨cells, equal, -⟩
  simp at equal

theorem cells_accepts {fuel : Nat} {s : State} (enough : s.cursor.rest.length < fuel) :
    Accepts s (cells fuel s).2.2 (Until IsCell .rangle) := by
  induction fuel generalizing s with
  | zero => exact absurd enough (Nat.not_lt_zero _)
  | succ fuel ih =>
    -- After a cell the rest of the cells comes.
    have onward : ∀ {t : Terminal} {next : State}, IsCell t → next.cursor.rest.length < s.cursor.rest.length →
        Accepts next (cells fuel next).2.2 fun ts => Until IsCell .rangle (t :: ts) := by
      intro t next cell shorter
      refine (ih (s := next) (by omega)).congr fun ts _ _ => ?_
      rw [until_cons]
      refine ⟨fun rest => .inr ⟨cell, rest⟩, fun cases => cases.elim (fun close => ?_) And.right⟩
      rw [close.1] at cell
      exact cell.elim
    have single : ∀ t : Terminal, s.peek.terminal = t → t ≠ .mark .eof ∧ t ≠ .mark .lparen → IsCell t →
        Accepts s (cells fuel s.take).2.2 (Until IsCell .rangle) := by
      intro t seen proper cell
      have more : s.peek.kind ≠ .eof := fun kind => proper.1 (by rw [← seen, Token.terminal, kind])
      exact .take seen proper (onward cell (State.take_shorter more)) until_nil
    cases kind : s.peek.kind with
    | rangle =>
      simp only [cells, kind]
      refine .take (t := .mark .rangle) (by simp [Token.terminal, kind]) (by simp) ?_ until_nil
      exact (Accepts.done s.take).congr fun ts _ _ => by simp [until_cons, IsCell]
    | name =>
      simp only [cells, kind]
      exact single (.name s.peek.text) (by simp [Token.terminal, kind]) (by simp) trivial
    | char =>
      simp only [cells, kind]
      exact single .char (by simp [Token.terminal, kind]) (by simp) trivial
    | ref =>
      simp only [cells, kind]
      exact single .ref (by simp [Token.terminal, kind]) (by simp) trivial
    | pathRef =>
      simp only [cells, kind]
      exact single .pathRef (by simp [Token.terminal, kind]) (by simp) trivial
    | lparen =>
      have opening : s.cursor.next.1.kind = .lparen := kind
      have shorter := Cursor.terminal_shorter (c := s.cursor) (by simp [opening])
      simp only [cells, kind]
      split
      · rename_i closed
        have seen : s.cursor.terminal = (.group (0x28 :: (Group.scan 1 s.take.cursor.rest).text),
            s.take.cursor.advance (Group.scan 1 s.take.cursor.rest).text.length) := by
          have scanned : (Group.scan 1 s.cursor.next.2.rest).closed = true := closed
          simp only [Cursor.terminal, opening, scanned, decide_true, Bool.and_self, if_true]
          rfl
        rw [seen] at shorter
        exact .shift { s.take with cursor := s.take.cursor.advance (Group.scan 1 s.take.cursor.rest).text.length }
          (by simp [kind]) seen Iff.rfl (onward trivial shorter) until_nil
      · rename_i open_
        have seen : s.cursor.terminal.1 = .mark .lparen := by
          have scanned : (Group.scan 1 s.cursor.next.2.rest).closed ≠ true := open_
          simp only [Cursor.terminal, opening, scanned, decide_true, Bool.and_false, Bool.false_eq_true, if_false, Token.terminal]
        refine .fail (fun clean => State.report_dirty _ _ rfl (clean.earlier (cells_yields fuel _).1)) (fun ts => ?_) until_nil
        rw [seen, until_cons]
        simp [IsCell]
    | _ =>
      simp only [cells, kind]
      exact .refuse (s.report_dirty _ rfl) (by simp [Token.terminal, kind, until_cons, IsCell]) (by simp [kind]) until_nil

theorem array_accepts (t : Token) (width : Width) (s : State) : Accepts s (array t width s).2 (Until IsCell .rangle) :=
  cells_accepts s.rounds_enough

theorem digitValue_hex : ∀ b : UInt8, (Bytes.digitValue b).any (decide <| · < 16) = Bytes.isHexDigit b :=
  forall_byte (by decide +kernel)

theorem readDigits_pair (a b : UInt8) :
    (Bytes.readDigits 16 [a, b]).isSome = (Bytes.isHexDigit a && Bytes.isHexDigit b) := by
  rw [← digitValue_hex, ← digitValue_hex]
  simp only [Bytes.readDigits, List.isEmpty_cons, Bool.false_eq_true, if_false, List.foldlM_cons, List.foldlM_nil]
  cases first : Bytes.digitValue a with
  | none => rfl
  | some d =>
    by_cases small : d < 16
    · cases second : Bytes.digitValue b with
      | none => simp [small]
      | some e => by_cases small' : e < 16 <;> simp [small, small']
    · simp [small]

theorem hexPairs_good (text : Bytes) :
    (hexPairs text).2 = true ↔ text.length % 2 = 0 ∧ ∀ b ∈ text, Bytes.isHexDigit b = true := by
  have pair := readDigits_pair
  fun_induction hexPairs text with
  | case1 => simp
  | case2 => simp
  | case3 a b rest v read more good again ih =>
    have hex := pair a b
    rw [read, Option.isSome_some, eq_comm, Bool.and_eq_true] at hex
    have tail : good = true ↔ rest.length % 2 = 0 ∧ ∀ b ∈ rest, Bytes.isHexDigit b = true := by
      rw [again] at ih
      exact ih
    rw [tail]
    simp only [List.length_cons, List.mem_cons, forall_eq_or_imp, hex, true_and]
    exact and_congr_left fun _ => by omega
  | case4 a b rest read =>
    have hex := pair a b
    rw [read, Option.isSome_none, eq_comm, Bool.and_eq_false_iff] at hex
    simp only [Bool.false_eq_true, List.mem_cons, false_iff, not_and]
    rintro - all
    rcases hex with bad | bad
    · rw [all a (.inl rfl)] at bad
      cases bad
    · rw [all b (.inr (.inl rfl))] at bad
      cases bad

theorem byteElement_good (text : Bytes) : (byteElement text).2 = true ↔ IsHex (.name text) := by
  unfold byteElement IsHex
  split
  · exact hexPairs_good text
  · rename_i odd
    simp [odd]

theorem byteElements_accepts {fuel : Nat} {s : State} (enough : s.cursor.rest.length < fuel) :
    Accepts s (byteElements fuel s).2.2 (Until IsHex .rbracket) := by
  induction fuel generalizing s with
  | zero => exact absurd enough (Nat.not_lt_zero _)
  | succ fuel ih =>
    cases kind : s.peek.kind with
    | rbracket =>
      simp only [byteElements, kind]
      refine .take (t := .mark .rbracket) (by simp [Token.terminal, kind]) (by simp) ?_ until_nil
      exact (Accepts.done s.take).congr fun ts _ _ => by simp [until_cons, IsHex]
    | name =>
      have seen : s.peek.terminal = .name s.peek.text := by simp [Token.terminal, kind]
      have shorter : s.take.cursor.rest.length < s.cursor.rest.length := State.take_shorter (by simp [kind])
      simp only [byteElements, kind]
      by_cases good : (byteElement s.peek.text).2 = true
      · rw [if_pos good]
        refine .take seen (by simp) ((ih (s := s.take) (by omega)).congr fun ts _ _ => ?_) until_nil
        simp [until_cons, (byteElement_good _).mp good]
      · rw [if_neg good]
        refine .refuse (fun clean => State.report_dirty _ _ rfl (clean.earlier (byteElements_yields fuel _).1)) (fun ts => ?_)
          (by simp [kind]) until_nil
        rw [seen, until_cons, ← byteElement_good]
        simp [good]
    | _ =>
      simp only [byteElements, kind]
      exact .refuse (s.report_dirty _ rfl) (by simp [Token.terminal, kind, until_cons, IsHex])
        (by simp [until_cons, IsHex]) until_nil

def valueAfter : Terminal → List Terminal → Prop
  | .string raw, ts => (literal raw).2 = true ∧ ts = []
  | .mark .langle, ts => Until IsCell .rangle ts
  | .mark .lbracket, ts => Until IsHex .rbracket ts
  | .ref, ts => ts = []
  | .pathRef, ts => ts = []
  | .directive name, ts => name = utf8 "/bits/" ∧
    (IsArray ts ∨ ∃ size rest, ts = .name size :: rest ∧ (width? size).isSome = true ∧ IsArray rest)
  | _, _ => False

theorem isValue_cons {t : Terminal} {ts : List Terminal} : IsValue (t :: ts) ↔ valueAfter t ts := by
  constructor
  · intro value
    generalize word : t :: ts = us at value
    cases value with
    | string escapes =>
      cases word
      exact ⟨escapes, rfl⟩
    | array array =>
      subst word
      obtain ⟨rfl, rest⟩ := isArray_cons.mp array
      exact rest
    | bytes bytes =>
      obtain ⟨elements, rfl, all⟩ := bytes
      cases word
      exact ⟨elements, rfl, all⟩
    | ref =>
      cases word
      rfl
    | pathRef =>
      cases word
      rfl
    | bits array =>
      cases word
      exact ⟨rfl, .inl array⟩
    | width number array =>
      cases word
      exact ⟨rfl, .inr ⟨_, _, rfl, number, array⟩⟩
  · intro rest
    cases t with
    | string raw =>
      obtain ⟨escapes, rfl⟩ := rest
      exact .string escapes
    | ref =>
      cases rest
      exact .ref
    | pathRef =>
      cases rest
      exact .pathRef
    | directive name =>
      obtain ⟨rfl, array | ⟨size, tail, rfl, number, array⟩⟩ := rest
      · exact .bits array
      · exact .width number array
    | mark kind =>
      cases kind with
      | langle => exact .array (isArray_cons.mpr ⟨rfl, rest⟩)
      | lbracket =>
        obtain ⟨elements, rfl, all⟩ := rest
        exact .bytes ⟨elements, rfl, all⟩
      | _ => cases rest
    | _ => cases rest

theorem isValue_nil : ¬ IsValue [] := by
  intro value
  generalize word : ([] : List Terminal) = us at value
  cases value with
  | array array => exact isArray_nil (word ▸ array)
  | bytes bytes =>
    obtain ⟨elements, equal, -⟩ := bytes
    simp [← word] at equal
  | _ => cases word

theorem sizedArray_accepts (t size : Token) (width : Width) (s : State) :
    Accepts s (sizedArray t size width s).2 IsArray := by
  unfold sizedArray
  split
  · rename_i kind
    refine .take (t := .mark .langle) (by simp [Token.terminal, kind]) (by simp) ?_ isArray_nil
    exact (array_accepts s.peek width s.take).congr fun ts _ _ => by simp [isArray_cons]
  · rename_i other
    refine .refuse (s.report_dirty _ rfl) (fun ts array => ?_) (by simp [isArray_cons]) isArray_nil
    exact other (by rw [← s.peek.terminal_kind, (isArray_cons.mp array).1]; rfl)

theorem wideArray_accepts (t : Token) (s : State) : Accepts s (wideArray t s).2 fun ts =>
    IsArray ts ∨ ∃ size rest, ts = .name size :: rest ∧ (width? size).isSome = true ∧ IsArray rest := by
  have nonempty : ¬ (IsArray [] ∨ ∃ size rest, ([] : List Terminal) = .name size :: rest ∧ (width? size).isSome = true ∧
      IsArray rest) := by
    simp [isArray_nil]
  rw [wideArray_eq]
  unfold chosenWidth
  split
  · rename_i kind
    have seen : s.peek.terminal = .name s.peek.text := by simp [Token.terminal, kind]
    split
    · rename_i width number
      refine .take seen (by simp) ?_ nonempty
      exact (sizedArray_accepts t s.peek width s.take).congr fun ts _ _ => by simp [isArray_cons, number]
    · rename_i bad
      refine .refuse (fun clean => State.report_dirty _ _ rfl (clean.earlier (sizedArray_yields t s.peek _ _).1))
        (fun ts => ?_) (by simp [isArray_cons]) nonempty
      rw [seen, isArray_cons]
      simp [bad]
  · rename_i other
    refine (sizedArray_accepts t s.peek .w32 s).congr fun ts stop delivers => ⟨.inl, fun word => word.resolve_right ?_⟩
    rintro ⟨size, rest, rfl, -⟩
    exact other delivers.kind.symm

def sought : Option Value × State → State
  | (none, s) => s.report s.peek.range .expectedValue
  | (some _, s) => s

theorem sought_grows (found : Option Value × State) : found.2.errors <:+ (sought found).errors := by
  obtain ⟨_ | v, s⟩ := found
  · exact List.suffix_cons _ _
  · exact List.suffix_rfl

theorem wideArray_found {t : Token} {s : State} (missing : (wideArray t s).1 = none) : ¬ (wideArray t s).2.Clean := by
  rw [wideArray_eq] at missing ⊢
  unfold sizedArray at missing ⊢
  split
  · rename_i kind
    simp [kind] at missing
  · exact State.report_dirty _ _ rfl

theorem value_accepts (s : State) : Accepts s (sought (value s)) IsValue := by
  have refused : ∀ {after : State}, ¬ after.Clean → (∀ ts, ¬ valueAfter s.peek.terminal ts) → Accepts s after IsValue :=
    fun dirty none => .refuse dirty (fun ts => isValue_cons.not.mpr (none ts)) (by simp [isValue_cons, valueAfter]) isValue_nil
  cases kind : s.peek.kind with
  | string =>
    have seen : s.peek.terminal = .string s.peek.text := by simp [Token.terminal, kind]
    simp only [value, kind]
    split
    · rename_i good
      refine .take seen (by simp) ?_ isValue_nil
      exact (Accepts.done s.take).congr fun ts _ _ => by simp [isValue_cons, valueAfter, good]
    · rename_i bad
      exact refused (State.report_dirty _ _ rfl) fun ts => by simp [seen, valueAfter, bad]
  | langle =>
    simp only [value, kind]
    refine .take (t := .mark .langle) (by simp [Token.terminal, kind]) (by simp) ?_ isValue_nil
    exact (array_accepts s.peek .w32 s.take).congr fun ts _ _ => by simp [isValue_cons, valueAfter]
  | lbracket =>
    simp only [value, kind]
    refine .take (t := .mark .lbracket) (by simp [Token.terminal, kind]) (by simp) ?_ isValue_nil
    have read : Accepts s.take (byteElements s.take.rounds s.take).2.2 _ := byteElements_accepts s.take.rounds_enough
    exact read.congr fun ts _ _ => by simp [isValue_cons, valueAfter]
  | ref =>
    simp only [value, kind]
    refine .take (t := .ref) (by simp [Token.terminal, kind]) (by simp) ?_ isValue_nil
    exact (Accepts.done s.take).congr fun ts _ _ => by simp [isValue_cons, valueAfter]
  | pathRef =>
    simp only [value, kind]
    refine .take (t := .pathRef) (by simp [Token.terminal, kind]) (by simp) ?_ isValue_nil
    exact (Accepts.done s.take).congr fun ts _ _ => by simp [isValue_cons, valueAfter]
  | directive =>
    have seen : s.peek.terminal = .directive s.peek.text := by simp [Token.terminal, kind]
    simp only [value, kind]
    by_cases bits : s.peek.text = utf8 "/bits/"
    · rw [if_pos bits]
      refine .take seen (by simp) ?_ isValue_nil
      have read := wideArray_accepts s.peek s.take
      have missing := wideArray_found (t := s.peek) (s := s.take)
      generalize wideArray s.peek s.take = result at read missing
      obtain ⟨_ | v, after⟩ := result
      · refine ⟨fun clean => absurd clean (State.report_dirty _ _ rfl), fun ts stop clean delivers word => ?_⟩
        simp only [isValue_cons, valueAfter, bits, true_and] at word
        exact absurd (read.complete ts stop clean delivers word).1 (missing rfl)
      · exact read.congr fun ts _ _ => by simp [isValue_cons, valueAfter, bits]
    · rw [if_neg bits]
      exact refused (State.report_dirty _ _ rfl) fun ts => by simp [seen, valueAfter, bits]
  | error =>
    have seen : s.peek.terminal = .mark .error := by simp [Token.terminal, kind]
    simp only [value, kind]
    refine refused (fun clean => ?_) fun ts => by simp [seen, valueAfter]
    have before := clean.earlier (sought_grows _)
    split at before <;> exact State.report_dirty _ _ rfl before
  | _ =>
    simp only [value, kind]
    exact refused (State.report_dirty _ _ rfl) (by simp [Token.terminal, kind, valueAfter])

theorem ended_accepts (stop : Position) (s : State) : Accepts s (ended stop s).2 (· = [.mark .semicolon]) := by
  unfold ended
  split
  · rename_i kind
    refine .take (t := .mark .semicolon) (by simp [Token.terminal, kind]) (by simp) ?_ (by simp)
    exact (Accepts.done s.take).congr (by simp)
  · rename_i other
    refine .refuse (fun clean => State.report_dirty _ _ rfl (clean.earlier (skipLine_yields _ _ _).1)) (fun ts word => ?_)
      (by simp) (by simp)
    rw [List.cons.injEq] at word
    exact other (by rw [← s.peek.terminal_kind, word.1]; rfl)

-- Values up to the semicolon.
def Assigned (ts : List Terminal) : Prop := ∃ vs, ts = vs ++ [.mark .semicolon] ∧ IsValues vs

theorem assigned_iff {ts : List Terminal} : Assigned ts ↔ ∃ front back, ts = front ++ back ∧ IsValue front ∧
    (back = [.mark .semicolon] ∨ ∃ more, back = .mark .comma :: more ∧ Assigned more) := by
  constructor
  · rintro ⟨vs, rfl, values⟩
    cases values with
    | last value => exact ⟨vs, _, rfl, value, .inl rfl⟩
    | comma value rest => exact ⟨_, _, List.append_assoc _ _ _, value, .inr ⟨_, rfl, _, rfl, rest⟩⟩
  · rintro ⟨front, back, rfl, value, rfl | ⟨more, rfl, vs, rfl, rest⟩⟩
    · exact ⟨front, rfl, .last value⟩
    · exact ⟨front ++ .mark .comma :: vs, by simp, .comma value rest⟩

theorem values_accepts {fuel : Nat} (stop : Position) {s : State} (enough : s.cursor.rest.length < fuel) :
    Accepts s (ended (values fuel stop s).2.1 (values fuel stop s).2.2).2 Assigned := by
  induction fuel generalizing s stop with
  | zero => exact absurd enough (Nat.not_lt_zero _)
  | succ fuel ih =>
    have first := value_accepts s
    simp only [values]
    generalize value s = result at first
    obtain ⟨_ | v, mid⟩ := result
    · refine (first.seq (M := fun back => back = [.mark .semicolon] ∨ ∃ more, back = .mark .comma :: more ∧ Assigned more)
        isValue_nil (ended_grows stop _) fun clean _ => ?_).congr fun ts _ _ => assigned_iff.symm
      exact absurd clean (State.report_dirty _ _ rfl)
    · dsimp only [sought] at first ⊢
      by_cases comma : mid.peek.kind = .comma
      · rw [if_pos comma]
        refine (first.seq (M := fun back => back = [.mark .semicolon] ∨ ∃ more, back = .mark .comma :: more ∧ Assigned more)
          isValue_nil ?_ fun _ shorter => ?_).congr fun ts _ _ => assigned_iff.symm
        · exact (values_yields fuel mid.peek.stop mid.take).1.trans (ended_grows _ _)
        · have less := mid.take_shorter (by simp [comma])
          refine .take (t := .mark .comma) (by simp [Token.terminal, comma]) (by simp) ?_ (by simp)
          exact (ih mid.peek.stop (s := mid.take) (by omega)).congr fun ts _ _ => by simp
      · rw [if_neg comma]
        refine (first.seq (M := fun back => back = [.mark .semicolon] ∨ ∃ more, back = .mark .comma :: more ∧ Assigned more)
          isValue_nil (ended_grows v.range.stop mid) fun _ _ => ?_).congr fun ts _ _ => assigned_iff.symm
        refine (ended_accepts v.range.stop mid).congr fun ts stop delivers => ⟨.inl, fun word => word.resolve_right ?_⟩
        rintro ⟨more, rfl, -⟩
        exact comma delivers.kind.symm

theorem property_accepts (found : List Label) (name : Token) (s : State) : Accepts s (property found name s).2 Assigned := by
  rw [property_eq]
  exact values_accepts name.stop s.rounds_enough

def IsVictim (ofNode : Prop) : Terminal → Prop
  | .name _ => True
  | .ref | .pathRef => ofNode
  | _ => False

theorem delete_accepts (t : Token) (s : State) : Accepts s (delete t s).2 fun ts =>
    ∃ victim, ts = [victim, .mark .semicolon] ∧ IsVictim (t.text = utf8 "/delete-node/") victim := by
  have nonempty : ¬ ∃ victim, ([] : List Terminal) = [victim, .mark .semicolon] ∧
      IsVictim (t.text = utf8 "/delete-node/") victim := by simp
  have finish : ∀ victim : Terminal, s.peek.terminal = victim → victim ≠ .mark .eof ∧ victim ≠ .mark .lparen →
      IsVictim (t.text = utf8 "/delete-node/") victim → Accepts s (semicolon s.peek.stop s.take).2 fun ts =>
        ∃ victim, ts = [victim, .mark .semicolon] ∧ IsVictim (t.text = utf8 "/delete-node/") victim := by
    intro victim seen proper allowed
    refine .take seen proper ?_ nonempty
    exact (semicolon_accepts _ s.take).congr fun ts _ _ => by simp [allowed]
  have refused : ∀ {after : State}, ¬ after.Clean → ¬ IsVictim (t.text = utf8 "/delete-node/") s.peek.terminal →
      Accepts s after fun ts => ∃ victim, ts = [victim, .mark .semicolon] ∧ IsVictim (t.text = utf8 "/delete-node/") victim := by
    intro after dirty never
    refine .refuse dirty (fun ts => ?_) (by simp [IsVictim]) nonempty
    simp [never]
  have skipped : ∀ u : State, ¬ u.Clean → ¬ (skip u).Clean := fun u dirty clean => dirty (clean.earlier (skip_yields u).1)
  cases kind : s.peek.kind with
  | name =>
    simp only [delete, kind]
    exact finish (.name s.peek.text) (by simp [Token.terminal, kind]) (by simp) trivial
  | ref =>
    simp only [delete, kind]
    split
    · rename_i node
      exact finish .ref (by simp [Token.terminal, kind]) (by simp) node
    · rename_i other
      exact refused (skipped _ (State.report_dirty _ _ rfl)) (by simpa [Token.terminal, kind, IsVictim] using other)
  | pathRef =>
    simp only [delete, kind]
    split
    · rename_i node
      exact finish .pathRef (by simp [Token.terminal, kind]) (by simp) node
    · rename_i other
      exact refused (skipped _ (State.report_dirty _ _ rfl)) (by simpa [Token.terminal, kind, IsVictim] using other)
  | _ =>
    simp only [delete, kind]
    exact refused (skipped _ (State.report_dirty _ _ rfl)) (by simp [Token.terminal, kind, IsVictim])

theorem labels_accept {fuel : Nat} {s after : State} {L : List Terminal → Prop} (enough : s.cursor.rest.length < fuel)
    (nonempty : ¬ L []) (plain : ∀ ts, ¬ L (.label :: ts)) (rest : Accepts (labels fuel s).2 after L) :
    Accepts s after fun ts => ∃ ls more, ts = ls ++ more ∧ IsLabels ls ∧ L more := by
  have none : ¬ ∃ ls more, ([] : List Terminal) = ls ++ more ∧ IsLabels ls ∧ L more := by
    rintro ⟨ls, more, empty, -, word⟩
    rw [(List.append_eq_nil_iff.mp empty.symm).2] at word
    exact nonempty word
  induction fuel generalizing s with
  | zero => exact absurd enough (Nat.not_lt_zero _)
  | succ fuel ih =>
    rw [labels] at rest
    dsimp only at rest
    split at rest
    · rename_i label
      have shorter := s.take_shorter (by simp [label])
      refine .take (t := .label) (by simp [Token.terminal, label]) (by simp) ?_ none
      refine (ih (s := s.take) (by omega) rest).congr fun ts _ _ => ⟨?_, ?_⟩
      · rintro ⟨ls, more, rfl, labelled, word⟩
        exact ⟨.label :: ls, more, rfl, by simpa [IsLabels] using labelled, word⟩
      · rintro ⟨ls, more, equal, labelled, word⟩
        cases ls with
        | nil => exact absurd (equal ▸ word) (plain ts)
        | cons l ls =>
          obtain ⟨-, rfl⟩ := List.cons.inj equal
          exact ⟨ls, more, rfl, fun t member => labelled t (List.mem_cons_of_mem _ member), word⟩
    · rename_i other
      refine rest.congr fun ts stop delivers => ⟨fun word => ⟨[], ts, rfl, List.forall_mem_nil _, word⟩, ?_⟩
      rintro ⟨ls, more, rfl, labelled, word⟩
      cases ls with
      | nil => exact word
      | cons l ls =>
        cases labelled l List.mem_cons_self
        exact absurd delivers.kind.symm other

end Parser
end DeviceTree
