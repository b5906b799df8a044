import DeviceTree.Proofs.Reading

namespace DeviceTree
open Lexer

def Entry.reread (e : Entry) : Entry := ⟨e.name, e.labels, e.settings.map Setting.reread⟩

mutual

def Outline.reread : Outline → Outline
  | .node e children => .node e.reread (rereadAll children)

def Outline.rereadAll : List Outline → List Outline
  | [] => []
  | o :: rest => o.reread :: rereadAll rest

end

def Entry.Plain (e : Entry) : Prop := (e.labels = [] → ¬ IsDirective e.name) ∧ ∀ p ∈ e.settings, p.Plain

instance (e : Entry) : Decidable e.Plain :=
  inferInstanceAs (Decidable ((e.labels = [] → ¬ IsDirective e.name) ∧ ∀ p ∈ e.settings, p.Plain))

def Entry.Spelled (e : Entry) : Prop := (∀ l ∈ e.labels, isLabelName l = true) ∧ ∀ p ∈ e.settings, p.Spelled

def Entry.Named (e : Entry) : Prop := IsName e.name ∧ e.Spelled

-- The statements that declare an outline: the properties of a node come first, then its children.
inductive Spells : List Setting → List Outline → List Statement → Prop where
  | done : Spells [] [] []
  | property {p : Setting} {settings : List Setting} {children : List Outline} {decl : PropertyDecl}
      {stmts : List Statement} (shown : decl.setting = p) (rest : Spells settings children stmts) :
      Spells (p :: settings) children (.property decl :: stmts)
  | node {e : Entry} {inner children : List Outline} {head : NodeHead} {body stmts : List Statement}
      (heading : head.heading = .name e.name) (labels : head.labels.map Label.name = e.labels)
      (inside : Spells e.settings inner body) (rest : Spells [] children stmts) :
      Spells [] (.node e inner :: children) (.node head body :: stmts)

def Outline.document (o : Outline) : Bytes := utf8 "/dts-v1/;\n\n" ++ o.text [] ++ utf8 "\n"

def blockText (indent : Bytes) (settings : List Setting) (children : List Outline) : Bytes :=
  settingsText (indent ++ utf8 "\t") settings ++
    (Outline.texts (indent ++ utf8 "\t") settings.isEmpty children ++ (utf8 "\n" ++ (indent ++ utf8 "\x7d;")))

theorem Outline.text_block (indent : Bytes) (e : Entry) (children : List Outline) :
    (Outline.node e children).text indent =
      labelsText e.labels ++ (e.name ++ (utf8 " \x7b" ++ blockText indent e.settings children)) := by
  simp only [Outline.text, blockText, List.append_assoc]

namespace Parser

def Indents (indent : Bytes) : Prop := ∀ b ∈ indent, Bytes.isSpaceOrTab b = true

theorem Indents.deeper {indent : Bytes} (indents : Indents indent) : Indents (indent ++ utf8 "\t") := by
  intro b member
  rcases List.mem_append.mp member with old | tab
  · exact indents b old
  · rw [show utf8 "\t" = [0x09] from rfl, List.mem_singleton] at tab
    rw [tab]
    rfl

theorem Indents.fresh {indent : Bytes} (indents : Indents indent) : freshAfter true indent = true := by
  induction indent with
  | nil => rfl
  | cons b rest ih =>
    have first := indents b List.mem_cons_self
    have later := ih fun c member => indents c (List.mem_cons_of_mem _ member)
    rw [freshAfter, List.foldl_cons, ← freshAfter]
    simp [first, later]

theorem Indents.blank {indent : Bytes} (indents : Indents indent) : ∀ b ∈ indent, isBlank b = true := by
  have spaces : ∀ b : UInt8, Bytes.isSpaceOrTab b = true → isBlank b = true := forall_byte (by decide +kernel)
  exact fun b member => spaces b (indents b member)

theorem line_faced {c : Cursor} {line indent text : Bytes} (newlines : line = utf8 "\n" ∨ line = utf8 "\n\n")
    (indents : Indents indent) (stands : c.At (line ++ (indent ++ text))) : c.Facing true text := by
  rw [← List.append_assoc] at stands
  have lines : ∀ b ∈ line, isBlank b = true := by
    rcases newlines with rfl | rfl <;> decide +kernel
  have blank : ∀ b ∈ line ++ indent, isBlank b = true := by
    intro b member
    rcases List.mem_append.mp member with ends | space
    · exact lines b ends
    · exact indents.blank b space
  have facing := stands.facing blank
  rw [freshAfter_append] at facing
  have fresh : freshAfter false line = true := by
    rcases newlines with rfl | rfl <;> rfl
  rwa [fresh, indents.fresh] at facing

-- How a body of the given properties and children is read, if the fuel is enough for every byte of it.
def BodyRead (fuel : Nat) : Prop :=
  ∀ (settings : List Setting) (children : List Outline) (first : Bool) (indent outer tail : Bytes) (s : State),
    Indents indent → Indents outer → (∀ p ∈ settings, p.Spelled) → Outline.AllIn Entry.Named children →
    s.cursor.At (settingsText indent settings ++ (Outline.texts indent first children ++
      (utf8 "\n" ++ (outer ++ (utf8 "\x7d;" ++ tail))))) →
    2 * s.cursor.rest.length + 2 ≤ fuel →
    Outcome ((∀ p ∈ settings, p.Plain) ∧ Outline.AllIn Entry.Plain children) s (body fuel s).2.2.2
      (Spells (settings.map Setting.reread) (Outline.rereadAll children) (body fuel s).1 ∧
        (body fuel s).2.2.2.cursor.At tail)

theorem brace_read {s : State} {tail : Bytes} (stands : s.cursor.At (utf8 " \x7b" ++ tail)) :
    s.peek.kind = .lbrace ∧ s.take.cursor.At tail := by
  have spaced : s.cursor.At ([0x20] ++ ([0x7b] ++ tail)) := stands
  obtain ⟨kind, -, opened⟩ := State.read (spaced.facing (by simp [isBlank])) (reads_mark .lbrace rfl _ _)
  exact ⟨kind, opened⟩

theorem node_read {k : Nat} (inside : BodyRead k) {e : Entry} {children : List Outline} (spelled : e.Spelled)
    (deeper : Outline.AllIn Entry.Named children) {indent : Bytes} (indents : Indents indent) {s : State} {tail : Bytes}
    (found : List Label) (name : Token)
    (stands : s.cursor.At (utf8 " \x7b" ++ (blockText indent e.settings children ++ tail)))
    (enough : 2 * s.cursor.rest.length ≤ k) :
    Outcome ((∀ p ∈ e.settings, p.Plain) ∧ Outline.AllIn Entry.Plain children) s (node (k + 1) found name s).2
      (Spells (e.settings.map Setting.reread) (Outline.rereadAll children) (node (k + 1) found name s).1.body ∧
        (node (k + 1) found name s).2.cursor.At tail) := by
  obtain ⟨kind, opened⟩ := brace_read stands
  have shorter : 2 * s.take.cursor.rest.length + 2 ≤ k := by
    have brace : (utf8 " \x7b").length = 2 := rfl
    rw [stands.1, List.length_append, brace] at enough
    rw [opened.1]
    omega
  have block : s.take.cursor.At (settingsText (indent ++ utf8 "\t") e.settings ++
      (Outline.texts (indent ++ utf8 "\t") e.settings.isEmpty children ++
        (utf8 "\n" ++ (indent ++ (utf8 "\x7d;" ++ tail))))) := by
    simpa only [blockText, List.append_assoc] using opened
  have read := inside e.settings children e.settings.isEmpty _ indent tail s.take indents.deeper indents spelled.2 deeper
    block shorter
  have step : (node (k + 1) found name s).1.body = (body k s.take).1 ∧
      (node (k + 1) found name s).2 = (body k s.take).2.2.2 := by
    simp [node, kind]
  rw [step.1, step.2]
  exact read.since rfl

theorem length_labelsText (ls : List Bytes) : ls.length ≤ (labelsText ls).length := by
  induction ls with
  | nil => simp
  | cons l ls ih =>
    simp only [labelsText, List.flatMap_cons, List.length_append, List.length_cons] at ih ⊢
    have colon : (utf8 ": ").length = 2 := rfl
    omega

theorem heading_read {ls : List Bytes} (proper : ∀ l ∈ ls, isLabelName l = true) {s : State} {word : Bytes} {kind : TokenKind}
    {tail : Bytes} (facing : s.cursor.Facing true (labelsText ls ++ (word ++ tail))) (other : kind ≠ .label)
    (reads : Reads ls.isEmpty kind tail word) :
    (s.peek.kind = .label ∨ s.peek.kind = kind) ∧ (labels s.rounds s).1.map Label.name = ls ∧
      (labels s.rounds s).2.errors = s.errors ∧ tail.length ≤ (labels s.rounds s).2.cursor.rest.length ∧
      (labels s.rounds s).2.peek.kind = kind ∧ (labels s.rounds s).2.peek.lexeme = word ∧
      (labels s.rounds s).2.take.cursor.At tail := by
  have enough : ls.length < s.rounds := by
    refine State.enough facing ?_
    have count := length_labelsText ls
    rw [List.length_append]
    omega
  have stop : ∀ c : Cursor, c.Facing (true && ls.isEmpty) (word ++ tail) → c.next.1.kind ≠ .label := by
    intro c here
    rw [Bool.true_and] at here
    rw [(here.read reads).1]
    exact other
  obtain ⟨names, next, same⟩ := labels_read proper facing enough stop
  rw [Bool.true_and] at next
  refine ⟨?_, names, same, (List.suffix_append _ _).length_le.trans next.length_le, State.read next reads⟩
  cases ls with
  | nil =>
    have bare : s.cursor.Facing true (word ++ tail) := facing
    exact .inr (State.read bare reads).1
  | cons l ls =>
    have text : labelsText (l :: ls) ++ (word ++ tail) = (l ++ [0x3a]) ++ ([0x20] ++ (labelsText ls ++ (word ++ tail))) := by
      simp [labelsText, show utf8 ": " = [0x3a, 0x20] from rfl]
    rw [text] at facing
    exact .inl (State.read facing (.of_label (proper l List.mem_cons_self) true _)).1

theorem block_read {k : Nat} (inside : BodyRead k) {e : Entry} {children : List Outline} (named : e.Named)
    (deeper : Outline.AllIn Entry.Named children) {indent : Bytes} (indents : Indents indent) {s : State} {tail : Bytes}
    (facing : s.cursor.Facing true ((Outline.node e children).text indent ++ tail))
    (enough : 2 * ((Outline.node e children).text indent ++ tail).length ≤ k) :
    Outcome ((Outline.node e children).All Entry.Plain) s (statement (k + 2) s).2
      (∃ head stmts, (statement (k + 2) s).1 = some (.node head stmts) ∧ head.heading = .name e.name ∧
        head.labels.map Label.name = e.labels ∧
        Spells (e.settings.map Setting.reread) (Outline.rereadAll children) stmts ∧
        (statement (k + 2) s).2.cursor.At tail) := by
  obtain ⟨proper, spelled⟩ := named
  rw [Outline.text_block, List.append_assoc, List.append_assoc, List.append_assoc] at facing enough
  generalize rest : utf8 " \x7b" ++ (blockText indent e.settings children ++ tail) = after at facing enough
  have ends : Ends after := by
    subst rest
    rintro b ⟨⟩
    decide
  have silent : isPreproc after = false := by
    subst rest
    exact isPreproc_mark (.inr (.inr rfl)) _
  by_cases bad : e.labels = [] ∧ IsDirective e.name
  · -- Without labels the name comes first on its line.
    have alone : s.cursor.Facing true (e.name ++ after) := by
      simpa [bad.1, labelsText] using facing
    exact .noted (fun all => all.1.1 bad.1 bad.2) (preproc_noted (alone.directive bad.2 ends.stop) (k + 1))
  · have reads : Reads e.labels.isEmpty .name after e.name := by
      refine .of_name proper ends ?_
      intro fresh
      exact ⟨fun directive => bad ⟨List.isEmpty_iff.mp fresh, directive⟩, silent⟩
    obtain ⟨first, names, same, -, kind, lexeme, stands⟩ := heading_read spelled.1 facing (by decide) reads
    have shorter : 2 * after.length ≤ k := by
      simp only [List.length_append] at enough
      omega
    have step : statement (k + 2) s = declared (k + 1) (labels s.rounds s).1 (labels s.rounds s).2.peek
        (labels s.rounds s).2.take := by
      rw [statement_eq first, declaration, if_pos kind]
    rw [step]
    generalize labels s.rounds s = heading at names same kind lexeme stands
    obtain ⟨found, mid⟩ := heading
    subst rest
    have read := node_read inside spelled deeper indents found mid.peek stands (by rw [stands.1]; exact shorter)
    have opened : declared (k + 1) found mid.peek mid.take =
        (some (.node (node (k + 1) found mid.peek mid.take).1.head (node (k + 1) found mid.peek mid.take).1.body),
          (node (k + 1) found mid.peek mid.take).2) := by
      simp only [declared, (brace_read stands).1]
    obtain ⟨heads, heading⟩ := node_head (k + 1) found mid.peek mid.take
    have good : (Outline.node e children).All Entry.Plain ↔
        (∀ p ∈ e.settings, p.Plain) ∧ Outline.AllIn Entry.Plain children := by
      rw [Outline.All, Entry.Plain]
      exact ⟨fun all => ⟨all.1.2, all.2⟩, fun all => ⟨⟨fun none directive => bad ⟨none, directive⟩, all.1⟩, all.2⟩⟩
    rw [opened, good]
    refine (read.since same).imp ?_
    rintro ⟨spells, done⟩
    refine ⟨_, _, rfl, ?_, by rw [heads]; exact names, spells, done⟩
    rw [heading, headingOf]
    simp only [kind, text_eq kind (by decide), lexeme]

def Starts (text : Bytes) : Prop := ∃ first rest, text = first :: rest ∧ isNameByte first = true ∧ first ≠ 0x2c

theorem starts_name {word : Bytes} (proper : IsName word) (tail : Bytes) : Starts (word ++ tail) := by
  obtain ⟨nonempty, comma, all⟩ := proper
  cases word with
  | nil => exact absurd rfl nonempty
  | cons first more => exact ⟨first, more ++ tail, rfl, all first List.mem_cons_self, by simpa using comma⟩

theorem starts_setting {p : Setting} (spelled : p.Spelled) (tail : Bytes) : Starts (p.text ++ tail) := by
  obtain ⟨name, values⟩ := p
  cases values with
  | nil =>
    simp only [Setting.text, List.append_assoc]
    exact starts_name spelled.1 _
  | cons v rest =>
    simp only [Setting.text, List.append_assoc]
    exact starts_name spelled.1 _

theorem starts_block {e : Entry} (named : e.Named) (indent : Bytes) (children : List Outline) (tail : Bytes) :
    Starts ((Outline.node e children).text indent ++ tail) := by
  obtain ⟨proper, labels, -⟩ := named
  rw [Outline.text_block, List.append_assoc, List.append_assoc]
  cases found : e.labels with
  | nil => exact starts_name proper _
  | cons l rest =>
    obtain ⟨first, more, rfl, comma, -, all⟩ := isLabelName_bytes (labels l (by simp [found]))
    exact ⟨first, _, rfl, all first List.mem_cons_self, comma⟩

theorem Starts.kind {s : State} {fresh : Bool} {text : Bytes} (starts : Starts text) (facing : s.cursor.Facing fresh text) :
    s.peek.kind = .preproc ∨ s.peek.kind = .label ∨ s.peek.kind = .name := by
  obtain ⟨first, rest, rfl, byte, comma⟩ := starts
  have gap : gapPiece first rest = none := by
    have slash : first ≠ 0x2f := by
      rintro rfl
      cases byte
    simp [gapPiece, name_not_blank first byte, slash]
  have kind : s.peek.kind = (lexeme fresh first rest).1 := facing.kind gap
  rw [kind]
  by_cases directive : first = 0x23 ∧ (fresh && isPreproc rest) = true
  · obtain ⟨rfl, found⟩ := directive
    have opens : lexeme fresh 0x23 rest =
        if fresh && isPreproc rest then (.preproc, preprocLength rest) else name 0x23 rest := rfl
    rw [opens, if_pos found]
    exact .inl rfl
  · rw [lexeme_name byte comma fun hash => by simpa [hash] using directive, name]
    split
    · exact .inr (.inl rfl)
    · exact .inr (.inr rfl)

theorem Starts.body {s : State} {fresh : Bool} {text : Bytes} (starts : Starts text) (facing : s.cursor.Facing fresh text)
    (fuel : Nat) : body (fuel + 1) s = ((statement fuel s).1.toList ++ (body fuel (statement fuel s).2).1,
      (body fuel (statement fuel s).2).2) := by
  rw [Parser.body]
  rcases starts.kind facing with kind | kind | kind <;> simp only [kind]

theorem body_close {s : State} {fresh : Bool} {tail : Bytes} (facing : s.cursor.Facing fresh (utf8 "\x7d;" ++ tail))
    (fuel : Nat) :
    (body (fuel + 1) s).1 = [] ∧ (body (fuel + 1) s).2.2.2.errors = s.errors ∧
      (body (fuel + 1) s).2.2.2.cursor.At tail := by
  have closes : s.cursor.Facing fresh ([0x7d] ++ ([0x3b] ++ tail)) := facing
  obtain ⟨brace, -, after⟩ := State.read closes (reads_mark .rbrace rfl fresh _)
  obtain ⟨mark, -, done⟩ := State.read after.facing_word (reads_mark .semicolon rfl false _)
  have step : body (fuel + 1) s = ([], s.take.peek.stop, true, s.take.take) := by
    rw [body]
    simp only [brace, semicolon, mark, if_true]
  rw [step]
  exact ⟨rfl, rfl, done⟩

theorem body_setting {f : Nat} (later : BodyRead f) {p : Setting} {rest : List Setting} {children : List Outline}
    {first : Bool} {indent outer tail : Bytes} {s : State} (indents : Indents indent) (outside : Indents outer)
    (spelled : ∀ q ∈ p :: rest, q.Spelled) (named : Outline.AllIn Entry.Named children)
    (stands : s.cursor.At (settingsText indent (p :: rest) ++ (Outline.texts indent first children ++
      (utf8 "\n" ++ (outer ++ (utf8 "\x7d;" ++ tail))))))
    (enough : 2 * s.cursor.rest.length + 2 ≤ f + 1) :
    Outcome ((∀ q ∈ p :: rest, q.Plain) ∧ Outline.AllIn Entry.Plain children) s (body (f + 1) s).2.2.2
      (Spells ((p :: rest).map Setting.reread) (Outline.rereadAll children) (body (f + 1) s).1 ∧
        (body (f + 1) s).2.2.2.cursor.At tail) := by
  have line : s.cursor.At (utf8 "\n" ++ (indent ++ (p.text ++ (settingsText indent rest ++
      (Outline.texts indent first children ++ (utf8 "\n" ++ (outer ++ (utf8 "\x7d;" ++ tail)))))))) := by
    simpa only [settingsText, List.flatMap_cons, List.append_assoc] using stands
  have length := congrArg List.length line.1
  rw [List.length_append, List.length_append, List.length_append, show (utf8 "\n").length = 1 from rfl] at length
  have facing := line_faced (.inl rfl) indents line
  have here := spelled p List.mem_cons_self
  rw [(starts_setting here _).body facing]
  obtain ⟨k, rfl⟩ : ∃ k, f = k + 1 := ⟨f - 1, by omega⟩
  have both : ((∀ q ∈ p :: rest, q.Plain) ∧ Outline.AllIn Entry.Plain children) ↔
      p.Plain ∧ ((∀ q ∈ rest, q.Plain) ∧ Outline.AllIn Entry.Plain children) := by
    rw [List.forall_mem_cons, and_assoc]
  refine (setting_read here facing k).then ?_ ((blocks_yield (k + 1)).2.1 _).1 both
  rintro ⟨decl, found, shown, after⟩
  have read := later rest children first indent outer tail _ indents outside
    (fun q member => spelled q (List.mem_cons_of_mem _ member)) named after (by rw [after.1]; omega)
  refine read.imp ?_
  rintro ⟨spells, done⟩
  rw [found]
  exact ⟨.property shown spells, done⟩

theorem body_child {f : Nat} (earlier : ∀ k < f, BodyRead k) (later : BodyRead f) {e : Entry} {inner rest : List Outline}
    {first : Bool} {indent outer tail : Bytes} {s : State} (indents : Indents indent) (outside : Indents outer)
    (named : Outline.AllIn Entry.Named (.node e inner :: rest))
    (stands : s.cursor.At (Outline.texts indent first (.node e inner :: rest) ++
      (utf8 "\n" ++ (outer ++ (utf8 "\x7d;" ++ tail)))))
    (enough : 2 * s.cursor.rest.length + 2 ≤ f + 1) :
    Outcome (Outline.AllIn Entry.Plain (.node e inner :: rest)) s (body (f + 1) s).2.2.2
      (Spells [] (Outline.rereadAll (.node e inner :: rest)) (body (f + 1) s).1 ∧
        (body (f + 1) s).2.2.2.cursor.At tail) := by
  obtain ⟨⟨here, deeper⟩, siblings⟩ := named
  have line : s.cursor.At ((if first then utf8 "\n" else utf8 "\n\n") ++ (indent ++ ((Outline.node e inner).text indent ++
      (Outline.texts indent false rest ++ (utf8 "\n" ++ (outer ++ (utf8 "\x7d;" ++ tail))))))) := by
    simpa only [Outline.texts, List.append_assoc] using stands
  have newlines : (if first then utf8 "\n" else utf8 "\n\n") = utf8 "\n" ∨
      (if first then utf8 "\n" else utf8 "\n\n") = utf8 "\n\n" := by
    cases first <;> simp
  have positive : 1 ≤ (if first then utf8 "\n" else utf8 "\n\n").length := by
    cases first <;> decide
  have length := congrArg List.length line.1
  rw [List.length_append, List.length_append] at length
  have facing := line_faced newlines indents line
  rw [(starts_block here indent inner _).body facing]
  have closing : 2 ≤ ((Outline.node e inner).text indent ++
      (Outline.texts indent false rest ++ (utf8 "\n" ++ (outer ++ (utf8 "\x7d;" ++ tail))))).length := by
    have brace : (utf8 "\x7d;").length = 2 := rfl
    simp only [List.length_append, brace]
    omega
  obtain ⟨k, rfl⟩ : ∃ k, f = k + 2 := ⟨f - 2, by omega⟩
  refine (block_read (earlier k (by omega)) here deeper indents facing (by omega)).then ?_
    ((blocks_yield (k + 2)).2.1 _).1 Iff.rfl
  rintro ⟨head, stmts, found, heading, labels, inside, after⟩
  have shorter : (Outline.texts indent false rest ++ (utf8 "\n" ++ (outer ++ (utf8 "\x7d;" ++ tail)))).length ≤
      ((Outline.node e inner).text indent ++
        (Outline.texts indent false rest ++ (utf8 "\n" ++ (outer ++ (utf8 "\x7d;" ++ tail))))).length := by
    exact (List.suffix_append _ _).length_le
  have read := later [] rest false indent outer tail _ indents outside (by simp) siblings after (by rw [after.1]; omega)
  have good : ((∀ p ∈ ([] : List Setting), p.Plain) ∧ Outline.AllIn Entry.Plain rest) ↔ Outline.AllIn Entry.Plain rest := by
    simp
  rw [good] at read
  refine read.imp ?_
  rintro ⟨spells, done⟩
  rw [found]
  exact ⟨.node heading labels inside spells, done⟩

theorem body_read (fuel : Nat) : BodyRead fuel := by
  induction fuel using Nat.strong_induction_on with
  | _ fuel ih =>
    intro settings children first indent outer tail s indents outside spelled named stands enough
    obtain ⟨f, rfl⟩ : ∃ f, fuel = f + 1 := ⟨fuel - 1, by omega⟩
    have later := ih f (Nat.lt_succ_self f)
    cases settings with
    | cons p rest => exact body_setting later indents outside spelled named stands enough
    | nil =>
      cases children with
      | nil =>
        have line : s.cursor.At (utf8 "\n" ++ (outer ++ (utf8 "\x7d;" ++ tail))) := stands
        obtain ⟨nothing, same, done⟩ := body_close (line_faced (.inl rfl) outside line) f
        rw [nothing]
        exact .clean ⟨by simp, trivial⟩ same ⟨.done, done⟩
      | cons o rest =>
        obtain ⟨e, inner⟩ := o
        have read := body_child (fun k less => ih k (Nat.lt_succ_of_lt less)) later indents outside named stands enough
        simpa using read

theorem items_item {s : State} (more : s.peek.kind ≠ .eof) (fuel : Nat) : items (fuel + 1) s =
    ((item s.rounds s).1.toList ++ (items fuel (item s.rounds s).2).1, (items fuel (item s.rounds s).2).2) := by
  rw [items, if_neg more]

theorem items_end {s : State} (ends : s.peek.kind = .eof) (fuel : Nat) : items fuel s = ([], s) := by
  cases fuel with
  | zero => rfl
  | succ fuel => rw [items, if_pos ends]

theorem version_read {s : State} {tail : Bytes} (facing : s.cursor.Facing true (utf8 "/dts-v1/;" ++ tail)) :
    s.peek.kind = .directive ∧ ∃ d, (item s.rounds s).1 = some (.directive d) ∧
      (item s.rounds s).2.errors = s.errors ∧ (item s.rounds s).2.cursor.At tail := by
  have whole : s.cursor.Facing true (utf8 "/dts-v1/" ++ ([0x3b] ++ tail)) := facing
  have reads : Reads true .directive ([0x3b] ++ tail) (utf8 "/dts-v1/") := .intro rfl rfl ⟨0x2f, rfl, rfl⟩
  obtain ⟨kind, lexeme, after⟩ := State.read whole reads
  obtain ⟨mark, -, done⟩ := State.read after.facing_word (reads_mark .semicolon rfl false _)
  have text : s.peek.text = utf8 "/dts-v1/" := by rw [text_eq kind (by decide), lexeme]
  have step : item s.rounds s =
      (some (.directive ⟨⟨s.peek.start, s.take.peek.stop⟩, s.peek.text, []⟩), s.take.take) := by
    rw [State.rounds, item]
    simp only [kind, text, decide_true, Bool.true_or, if_true, semicolon, mark]
  rw [step]
  exact ⟨kind, _, rfl, rfl, done⟩

theorem root_read {e : Entry} {children : List Outline} (root : e.name = utf8 "/") (spelled : e.Spelled)
    (deeper : Outline.AllIn Entry.Named children) {s : State} {tail : Bytes}
    (facing : s.cursor.Facing true ((Outline.node e children).text [] ++ tail)) :
    s.peek.kind ≠ .eof ∧ Outcome ((Outline.node e children).All Entry.Plain) s (item s.rounds s).2
      (∃ decl, (item s.rounds s).1 = some (.node decl) ∧ decl.head.heading = .name (utf8 "/") ∧
        decl.head.labels.map Label.name = e.labels ∧
        Spells (e.settings.map Setting.reread) (Outline.rereadAll children) decl.body ∧
        (item s.rounds s).2.cursor.At tail) := by
  rw [Outline.text_block, List.append_assoc, List.append_assoc, List.append_assoc, root] at facing
  have reads : ∀ fresh, Reads fresh .slash (utf8 " \x7b" ++ (blockText [] e.settings children ++ tail)) (utf8 "/") :=
    fun fresh => .intro rfl rfl ⟨0x2f, rfl, rfl⟩
  obtain ⟨first, names, same, length, kind, lexeme, stands⟩ := heading_read spelled.1 facing (by decide) (reads _)
  have step : item s.rounds s = headed (labels s.rounds s).1 (labels s.rounds s).2 := by
    refine item_eq ?_
    rcases first with kind | kind <;> simp [kind]
  rw [step]
  refine ⟨by rcases first with kind | kind <;> simp [kind], ?_⟩
  generalize labels s.rounds s = heading at names same length kind lexeme stands
  obtain ⟨found, mid⟩ := heading
  dsimp only at names same length kind lexeme stands ⊢
  have opened : headed found mid = (some (.node (node mid.fuel found mid.peek mid.take).1),
      (node mid.fuel found mid.peek mid.take).2) := by
    rw [headed, if_pos (by simp [kind])]
  obtain ⟨heads, heading⟩ := node_head mid.fuel found mid.peek mid.take
  have indents : Indents [] := by simp [Indents]
  have read := node_read (body_read _) spelled deeper indents found mid.peek stands
    (by rw [stands.1]; omega : 2 * mid.take.cursor.rest.length ≤ 2 * mid.cursor.rest.length + 3)
  have good : (Outline.node e children).All Entry.Plain ↔
      (∀ p ∈ e.settings, p.Plain) ∧ Outline.AllIn Entry.Plain children := by
    have slash : ¬ IsDirective e.name := by
      rintro ⟨command, -, equal⟩
      rw [root] at equal
      cases equal
    simp [Outline.All, Entry.Plain, slash]
  rw [opened, good]
  refine (read.since same).imp ?_
  rintro ⟨spells, done⟩
  refine ⟨_, rfl, ?_, by rw [heads]; exact names, spells, done⟩
  rw [heading, headingOf]
  simp only [kind]

theorem document_read {e : Entry} {children : List Outline} (root : e.name = utf8 "/") (spelled : e.Spelled)
    (deeper : Outline.AllIn Entry.Named children) {s : State}
    (facing : s.cursor.Facing true (Outline.node e children).document) :
    Outcome ((Outline.node e children).All Entry.Plain) s (items s.rounds s).2
      (∃ d decl, (items s.rounds s).1 = [.directive d, .node decl] ∧ decl.head.heading = .name (utf8 "/") ∧
        decl.head.labels.map Label.name = e.labels ∧
        Spells (e.settings.map Setting.reread) (Outline.rereadAll children) decl.body) := by
  have whole : s.cursor.Facing true (utf8 "/dts-v1/;" ++ (utf8 "\n\n" ++ ((Outline.node e children).text [] ++ utf8 "\n"))) := by
    simpa [Outline.document, show utf8 "/dts-v1/;\n\n" = utf8 "/dts-v1/;" ++ utf8 "\n\n" from rfl] using facing
  obtain ⟨rounds, enough⟩ : ∃ n, s.rounds = n + 2 := by
    have length := whole.length_le
    rw [List.length_append, show (utf8 "/dts-v1/;").length = 9 from rfl] at length
    exact ⟨s.cursor.rest.length - 1, by rw [State.rounds]; omega⟩
  obtain ⟨directive, d, version, same, after⟩ := version_read whole
  have indents : Indents [] := by simp [Indents]
  have next := line_faced (.inr rfl) indents after
  obtain ⟨more, read⟩ := root_read root spelled deeper next
  rw [enough, items_item (by rw [directive]; decide), items_item more, version]
  dsimp only [Option.toList]
  have both : (Outline.node e children).All Entry.Plain ↔ (Outline.node e children).All Entry.Plain ∧ True :=
    (and_iff_left trivial).symm
  refine (read.since same).then ?_ (items_yields _ _).1 both
  rintro ⟨decl, found, heading, labels, spells, done⟩
  have last : (item (item s.rounds s).2.rounds (item s.rounds s).2).2.cursor.At (utf8 "\n" ++ []) := done
  rw [items_end (last.facing (by decide +kernel)).eof, found]
  exact .clean trivial rfl ⟨d, decl, rfl, heading, labels, spells⟩

end Parser

theorem Document.parse_items (source : Bytes) :
    (parse source).items = (Parser.items (Parser.State.start source).rounds (.start source)).1 := rfl

theorem Document.parse_errors (source : Bytes) : (parse source).errors =
    (Parser.items (Parser.State.start source).rounds (.start source)).2.errors.reverse := rfl

-- A text that was written is read without an error just if all of it is plain, and then it declares what was written.
theorem Document.parse_document {e : Entry} {children : List Outline} (root : e.name = utf8 "/") (spelled : e.Spelled)
    (deeper : Outline.AllIn Entry.Named children) :
    (parse (Outline.node e children).document).errors = [] ∧ (Outline.node e children).All Entry.Plain ∧
        (∃ d decl, (parse (Outline.node e children).document).items = [.directive d, .node decl] ∧
          decl.head.heading = .name (utf8 "/") ∧ decl.head.labels.map Label.name = e.labels ∧
          Spells (e.settings.map Setting.reread) (Outline.rereadAll children) decl.body) ∨
      (parse (Outline.node e children).document).errors ≠ [] ∧ ¬ (Outline.node e children).All Entry.Plain := by
  have read := Parser.document_read root spelled deeper (s := .start (Outline.node e children).document)
    (Cursor.facing_start _)
  rw [parse_errors, parse_items]
  generalize Parser.items _ (Parser.State.start (Outline.node e children).document) = parsed at read
  cases read with
  | clean sound same result => exact .inl ⟨by rw [same]; rfl, sound, result⟩
  | noted flawed more =>
    refine .inr ⟨?_, flawed⟩
    intro none
    rw [List.reverse_eq_nil_iff.mp none] at more
    exact absurd more (Nat.not_lt_zero _)

end DeviceTree
