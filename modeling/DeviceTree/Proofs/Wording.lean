import DeviceTree.Proofs.Moves
import DeviceTree.Proofs.Outline

namespace DeviceTree
open Lexer

def IsRaw (text : Bytes) : Prop := IsName text ∨ IsQuoted 0x27 text ∨ IsGroup text

-- Empty braces leave a reference to the empty label.
def Target.Spelled : Target → Prop
  | .label l => l = [] ∨ IsLabelRef l
  | .path p => p ≠ [] ∧ IsPath p

def CellView.Spelled (width : Width) : CellView → Prop
  | .word value => value < 2 ^ width.bits
  | .raw text => IsRaw text ∧ Expr.value? text = none
  | .ref target => target.Spelled

def ValueView.Spelled : ValueView → Prop
  | .string _ => True
  | .bytes _ => True
  | .array width cells => ∀ c ∈ cells, c.Spelled width
  | .ref target => target.Spelled

def Setting.Spelled (p : Setting) : Prop := IsName p.name ∧ ∀ v ∈ p.values, v.Spelled

def Vocabulary.ofSource : Vocabulary := ⟨IsName, fun l => isLabelName l = true, fun p => p.setting.Spelled⟩

namespace Parser

def State.Balanced (s : State) : Prop := ∀ e ∈ s.errors, e.problem ≠ .unbalancedGroup

-- Between the two states errors are only added; if none of them is an open parenthesis, the result is good.
def Yields (s after : State) (good : Prop) : Prop := s.errors <:+ after.errors ∧ (after.Balanced → good)

theorem Yields.same {s after : State} {good : Prop} (errors : after.errors = s.errors) (sound : good) :
    Yields s after good :=
  ⟨by simp only [errors, List.suffix_rfl], fun _ => sound⟩

theorem Yields.reported {s after : State} {good : Prop} {e : SyntaxError} (errors : after.errors = e :: s.errors)
    (sound : good) : Yields s after good :=
  ⟨by rw [errors]; exact List.suffix_cons e s.errors, fun _ => sound⟩

theorem Yields.trans {s mid after : State} {one two good : Prop} (first : Yields s mid one) (second : Yields mid after two)
    (both : one → two → good) : Yields s after good := by
  refine ⟨first.1.trans second.1, ?_⟩
  intro balanced
  exact both (first.2 fun e member => balanced e (second.1.subset member)) (second.2 balanced)

theorem Yields.imp {s after : State} {one good : Prop} (first : Yields s after one) (sound : one → good) :
    Yields s after good :=
  ⟨first.1, fun balanced => sound (first.2 balanced)⟩

theorem semicolon_yields (stop : Position) (s : State) : Yields s (semicolon stop s).2 True := by
  unfold semicolon
  split
  · exact .same rfl trivial
  · exact .reported rfl trivial

theorem skip_yields (s : State) : Yields s (skip s) True := by
  have loop : ∀ (fuel : Nat) (s : State), (skipStatement fuel s).errors = s.errors := by
    intro fuel s
    fun_induction skipStatement fuel s with
    | case5 fuel s _ _ _ ih => exact ih
    | _ => rfl
  exact .same (loop s.rounds s) trivial

theorem skipLine_yields (fuel : Nat) (stop : Position) (s : State) : Yields s (skipLine fuel stop s).2 True := by
  have loop : (skipLine fuel stop s).2.errors = s.errors := by
    fun_induction skipLine fuel stop s with
    | case4 fuel stop s _ _ _ ih => exact ih
    | _ => rfl
  exact .same loop trivial

theorem text_label {t : Token} (label : t.kind = .label) (fits : Fits t.kind t.lexeme) : isLabelName t.text = true := by
  rw [label] at fits
  obtain ⟨name, lexeme, proper⟩ := fits
  simp [Token.text, label, lexeme, proper]

theorem text_name {t : Token} (name : t.kind = .name) (fits : Fits t.kind t.lexeme) : IsName t.text := by
  rw [name] at fits
  simp only [Token.text, name]
  exact fits

theorem labels_yields (fuel : Nat) (s : State) :
    Yields s (labels fuel s).2 (∀ l ∈ (labels fuel s).1, isLabelName l.name = true) := by
  fun_induction labels fuel s with
  | case1 => exact .same rfl (by simp)
  | case2 fuel s t label more after equal ih =>
    rw [equal] at ih
    refine ih.imp ?_
    intro later l member
    rcases List.mem_cons.mp member with rfl | other
    · exact text_label label s.cursor.next_fits
    · exact later l other
  | case3 => exact .same rfl (by simp)

theorem target_ref {t : Token} {label : Bytes} (ref : t.kind = .ref) (lexeme : t.lexeme = 0x26 :: label) :
    (refOfToken t).target = .label label := by
  simp only [refOfToken, ref, lexeme]
  rfl

theorem target_pathRef {t : Token} {path : Bytes} (pathRef : t.kind = .pathRef)
    (lexeme : t.lexeme = utf8 "&\x7b" ++ path ++ utf8 "\x7d") :
    (refOfToken t).target = if path = [] then .label [] else .path path := by
  have lead : Bytes.trimLead (utf8 "&\x7b") t.lexeme = path ++ [0x7d] := by
    rw [lexeme]
    rfl
  have tail : Bytes.trimTail (utf8 "\x7d") (path ++ [0x7d]) = path := by
    have cut : Bytes.dropLead? (utf8 "\x7d").reverse (path ++ [0x7d]).reverse = some path.reverse := by
      rw [List.reverse_append]
      rfl
    rw [Bytes.trimTail, Bytes.dropTail?, cut]
    simp
  simp only [refOfToken, pathRef, lead, tail]
  cases path <;> rfl

theorem refOfToken_spelled {t : Token} (ref : t.kind = .ref ∨ t.kind = .pathRef) (fits : Fits t.kind t.lexeme) :
    (refOfToken t).target.Spelled := by
  rcases ref with ref | ref
  · rw [ref] at fits
    obtain ⟨label, lexeme, proper⟩ := fits
    rw [target_ref ref lexeme]
    exact .inr proper
  · rw [ref] at fits
    obtain ⟨path, lexeme, proper⟩ := fits
    rw [target_pathRef ref lexeme]
    split
    · exact .inl rfl
    · rename_i nonempty
      exact ⟨nonempty, proper⟩

theorem int_spelled {raw : Bytes} (proper : IsRaw raw) (range : Range) (width : Width) :
    ((Cell.int range raw (Expr.value? raw)).view width).Spelled width := by
  cases value : Expr.value? raw with
  | some v => exact Nat.mod_lt _ (Nat.two_pow_pos _)
  | none => exact ⟨proper, value⟩

theorem cellOfToken_spelled {t : Token} (kind : t.kind = .name ∨ t.kind = .char) (fits : Fits t.kind t.lexeme)
    (width : Width) : ((cellOfToken t).view width).Spelled width := by
  have text : t.text = t.lexeme := by
    rcases kind with kind | kind <;> simp [Token.text, kind]
  refine int_spelled ?_ t.range width
  rw [text]
  rcases kind with kind | kind
  · rw [kind] at fits
    exact .inl fits
  · rw [kind] at fits
    exact .inr (.inl fits)

theorem group_spelled {rest : Bytes} (closed : (Group.scan 1 rest).closed = true) :
    IsRaw (0x28 :: (Group.scan 1 rest).text) := by
  generalize found : Group.scan 1 rest = group at closed
  obtain ⟨body, ends⟩ := group
  subst closed
  have again := (scan_closed found).2.2 []
  rw [List.append_nil] at again
  exact .inr (.inr ⟨body, rfl, again⟩)

def CellsSpelled (found : List Cell) : Prop := ∀ c ∈ found, ∀ width, (c.view width).Spelled width

theorem cellsSpelled_cons {c : Cell} {more : List Cell} (first : ∀ width, (c.view width).Spelled width)
    (later : CellsSpelled more) : CellsSpelled (c :: more) := by
  intro d member
  rcases List.mem_cons.mp member with rfl | other
  · exact first
  · exact later d other

theorem cells_yields (fuel : Nat) (s : State) : Yields s (cells fuel s).2.2 (CellsSpelled (cells fuel s).1) := by
  have nothing : CellsSpelled [] := by simp [CellsSpelled]
  have fits := fun s : State => s.cursor.next_fits
  fun_induction cells fuel s with
  | case1 => exact .same rfl nothing
  | case2 => exact .same rfl nothing
  | case3 fuel s t kind more rest equal ih =>
    rw [equal] at ih
    exact ih.imp fun later => cellsSpelled_cons (cellOfToken_spelled (.inl kind) (fits s)) later
  | case4 fuel s t kind more rest equal ih =>
    rw [equal] at ih
    exact ih.imp fun later => cellsSpelled_cons (cellOfToken_spelled (.inr kind) (fits s)) later
  | case5 fuel s t kind more rest equal ih =>
    rw [equal] at ih
    exact ih.imp fun later => cellsSpelled_cons (fun _ => refOfToken_spelled (.inl kind) (fits s)) later
  | case6 fuel s t kind more rest equal ih =>
    rw [equal] at ih
    exact ih.imp fun later => cellsSpelled_cons (fun _ => refOfToken_spelled (.inr kind) (fits s)) later
  | case7 fuel s t kind opened group text range after closed more rest equal ih =>
    rw [equal] at ih
    exact ih.imp fun later => cellsSpelled_cons (int_spelled (group_spelled closed) range) later
  | case8 fuel s t kind opened group text range after open_ more rest equal ih =>
    rw [equal] at ih
    have reported : Yields s (after.report range .unbalancedGroup) True := .reported rfl trivial
    refine ⟨reported.1.trans ih.1, ?_⟩
    intro balanced
    exact absurd rfl (balanced _ (ih.1.subset List.mem_cons_self))
  | case9 => exact .reported rfl nothing

theorem byteElements_yields (fuel : Nat) (s : State) : Yields s (byteElements fuel s).2.2 True := by
  fun_induction byteElements fuel s with
  | case1 => exact .same rfl trivial
  | case2 => exact .same rfl trivial
  | case3 fuel s t kind found good equal next more rest again ih =>
    rw [again] at ih
    have here : Yields s next True := by
      cases good with
      | true => exact .same rfl trivial
      | false => exact .reported rfl trivial
    exact here.trans ih fun _ _ => trivial
  | case4 => exact .reported rfl trivial

theorem array_yields (t : Token) (width : Width) (s : State) :
    Yields s (array t width s).2 (Value.array (array t width s).1).view.Spelled := by
  refine (cells_yields s.rounds s).imp ?_
  intro spelled c member
  obtain ⟨cell, present, rfl⟩ := List.mem_map.mp member
  exact spelled cell present width

def chosenWidth (s : State) : Width × State :=
  if s.peek.kind = .name then
    match width? s.peek.text with
    | some width => (width, s.take)
    | none => (.w32, s.take.report s.peek.range .badWidth)
  else (.w32, s)

def sizedArray (t size : Token) (width : Width) (s : State) : Option Value × State :=
  if s.peek.kind = .langle then
    let (a, s) := array s.peek width s.take
    (some (.array { a with range := ⟨t.start, a.range.stop⟩ }), s)
  else (none, s.report size.range .widthWithoutArray)

theorem wideArray_eq (t : Token) (s : State) :
    wideArray t s = sizedArray t s.peek (chosenWidth s).1 (chosenWidth s).2 := by
  unfold wideArray chosenWidth sizedArray
  by_cases named : s.peek.kind = .name
  · cases chosen : width? s.peek.text <;> simp only [named, if_true, chosen]
  · simp only [named, if_false]

theorem sizedArray_opened {s : State} (opens : s.peek.kind = .langle) (t size : Token) (width : Width) :
    sizedArray t size width s =
      (some (.array { (array s.peek width s.take).1 with
        range := ⟨t.start, (array s.peek width s.take).1.range.stop⟩ }), (array s.peek width s.take).2) :=
  if_pos opens

theorem sizedArray_missing {s : State} (other : s.peek.kind ≠ .langle) (t size : Token) (width : Width) :
    sizedArray t size width s = (none, s.report size.range .widthWithoutArray) :=
  if_neg other

theorem chosenWidth_yields (s : State) : Yields s (chosenWidth s).2 True := by
  unfold chosenWidth
  split
  · split
    · exact .same rfl trivial
    · exact .reported rfl trivial
  · exact .same rfl trivial

theorem sizedArray_yields (t size : Token) (width : Width) (s : State) :
    Yields s (sizedArray t size width s).2 (∀ v ∈ (sizedArray t size width s).1, v.view.Spelled) := by
  unfold sizedArray
  split
  · have opened : Yields s s.take True := .same rfl trivial
    refine opened.trans (array_yields s.peek width s.take) ?_
    rintro _ spelled v ⟨⟩
    exact spelled
  · exact .reported rfl (by simp)

theorem wideArray_yields (t : Token) (s : State) :
    Yields s (wideArray t s).2 (∀ v ∈ (wideArray t s).1, v.view.Spelled) := by
  rw [wideArray_eq]
  exact (chosenWidth_yields s).trans (sizedArray_yields t s.peek _ _) fun _ spelled => spelled

theorem value_yields (s : State) : Yields s (value s).2 (∀ v ∈ (value s).1, v.view.Spelled) := by
  have fits := s.cursor.next_fits
  unfold value
  dsimp only
  split
  · have plain : ∀ v ∈ some (Value.string s.peek.range (literal s.peek.text).1), v.view.Spelled := by
      rintro v ⟨⟩
      trivial
    split
    · exact .same rfl plain
    · exact .reported rfl plain
  · have opened : Yields s s.take True := .same rfl trivial
    refine opened.trans (array_yields s.peek .w32 s.take) ?_
    rintro _ spelled v ⟨⟩
    exact spelled
  · have opened : Yields s s.take True := .same rfl trivial
    refine opened.trans (byteElements_yields s.take.rounds s.take) ?_
    rintro _ _ v ⟨⟩
    trivial
  · rename_i kind
    refine .same rfl ?_
    rintro v ⟨⟩
    exact refOfToken_spelled (.inl kind) fits
  · rename_i kind
    refine .same rfl ?_
    rintro v ⟨⟩
    exact refOfToken_spelled (.inr kind) fits
  · split
    · have opened : Yields s s.take True := .same rfl trivial
      exact opened.trans (wideArray_yields s.peek s.take) fun _ spelled => spelled
    · exact .same rfl (by simp)
  · split
    · refine .reported rfl ?_
      rintro v ⟨⟩
      trivial
    · exact .reported rfl (by simp)
  · exact .same rfl (by simp)

theorem values_yields (fuel : Nat) (stop : Position) (s : State) :
    Yields s (values fuel stop s).2.2 (∀ v ∈ (values fuel stop s).1, v.view.Spelled) := by
  fun_induction values fuel stop s with
  | case1 => exact .same rfl (by simp)
  | case2 fuel stop s after equal =>
    have first := value_yields s
    rw [equal] at first
    exact first.trans (.reported rfl (by simp)) fun _ none => none
  | case3 fuel stop s v after equal comma more rest again ih =>
    have first := value_yields s
    rw [equal] at first
    rw [again] at ih
    have taken : Yields after after.take True := .same rfl trivial
    refine (first.trans taken fun here _ => here).trans ih ?_
    intro here later w member
    rcases List.mem_cons.mp member with rfl | other
    · exact here w rfl
    · exact later w other
  | case4 fuel stop s v after equal last =>
    have first := value_yields s
    rw [equal] at first
    refine first.imp ?_
    intro here w member
    rw [List.mem_singleton.mp member]
    exact here v rfl

theorem propertyDecl_spelled {found : List Label} {name : Token} {stop : Position} {vs : List Value} (proper : IsName name.text)
    (spelled : ∀ v ∈ vs, v.view.Spelled) : (propertyDecl found name stop vs).setting.Spelled := by
  refine ⟨proper, ?_⟩
  intro v member
  obtain ⟨w, present, rfl⟩ := List.mem_map.mp member
  exact spelled w present

def ended (stop : Position) (s : State) : Position × State :=
  if s.peek.kind = .semicolon then (s.peek.stop, s.take)
  else
    let s := s.report (.point stop) .missingSemicolon
    skipLine s.rounds stop s

theorem property_eq (found : List Label) (name : Token) (s : State) : property found name s =
    (propertyDecl found name (ended (values s.rounds name.stop s).2.1 (values s.rounds name.stop s).2.2).1
        (values s.rounds name.stop s).1,
      (ended (values s.rounds name.stop s).2.1 (values s.rounds name.stop s).2.2).2) := rfl

theorem ended_missing {stop : Position} {s : State} (missing : s.peek.kind ≠ .semicolon) :
    s.errors.length < (ended stop s).2.errors.length := by
  simp only [ended, missing, if_false]
  exact (skipLine_yields _ stop (s.report (.point stop) .missingSemicolon)).1.length_le

theorem ended_grows (stop : Position) (s : State) : s.errors <:+ (ended stop s).2.errors := by
  unfold ended
  split
  · exact List.suffix_rfl
  · exact (List.suffix_cons _ _).trans (skipLine_yields _ stop (s.report (.point stop) .missingSemicolon)).1

theorem property_yields (found : List Label) {name : Token} (proper : IsName name.text) (s : State) :
    Yields s (property found name s).2 (property found name s).1.setting.Spelled := by
  have read := values_yields s.rounds name.stop s
  unfold property
  generalize values s.rounds name.stop s = result at read
  obtain ⟨vs, stop, after⟩ := result
  dsimp only at read ⊢
  split
  · exact read.trans (.same rfl trivial) fun spelled _ => propertyDecl_spelled proper spelled
  · have reported : Yields after (after.report (.point stop) .missingSemicolon) True := .reported rfl trivial
    have skipped := reported.trans (skipLine_yields (after.report (.point stop) .missingSemicolon).rounds stop _)
      fun _ _ => trivial
    exact read.trans skipped fun spelled _ => propertyDecl_spelled proper spelled

theorem bareProperty_yields (found : List Label) {name : Token} (proper : IsName name.text) (s : State) :
    Yields s (bareProperty found name s).2 (bareProperty found name s).1.setting.Spelled := by
  have spelled : (propertyDecl found name name.stop []).setting.Spelled := propertyDecl_spelled proper (by simp)
  have reported : Yields s (s.report name.range .incompleteDeclaration) True := .reported rfl trivial
  unfold bareProperty
  dsimp only
  split
  · exact reported.trans (skip_yields _) fun _ _ => spelled
  · exact reported.imp fun _ => spelled

theorem delete_yields (t : Token) (s : State) : Yields s (delete t s).2 True := by
  have taken : Yields s s.take True := .same rfl trivial
  have finish := taken.trans (semicolon_yields s.peek.stop s.take) fun _ _ => trivial
  have refused : ∀ problem, Yields s (skip (s.take.report s.peek.range problem)) True := fun problem =>
    Yields.trans (.reported rfl trivial) (skip_yields _) fun _ _ => trivial
  unfold delete
  dsimp only
  split
  · exact finish
  · split
    · exact finish
    · exact refused _
  · split
    · exact finish
    · exact refused _
  · exact Yields.trans (.reported rfl trivial) (skip_yields _) fun _ _ => trivial

theorem covers_nil (v : Vocabulary) : v.Covers [] := by
  rw [Vocabulary.Covers]
  trivial

theorem covers_append (v : Vocabulary) {front back : List Statement} (one : v.Covers front) (two : v.Covers back) :
    v.Covers (front ++ back) := by
  induction front with
  | nil => exact two
  | cons stmt rest ih =>
    cases stmt with
    | property decl =>
      simp only [List.cons_append, Vocabulary.Covers] at one ⊢
      exact ⟨one.1, ih one.2⟩
    | node head body =>
      simp only [List.cons_append, Vocabulary.Covers] at one ⊢
      exact ⟨one.1, ih one.2⟩
    | delete d =>
      simp only [List.cons_append, Vocabulary.Covers] at one ⊢
      exact ih one

theorem node_head (fuel : Nat) (found : List Label) (name : Token) (s : State) :
    (node fuel found name s).1.head.labels = found ∧ (node fuel found name s).1.head.heading = headingOf name := by
  cases fuel with
  | zero => exact ⟨rfl, rfl⟩
  | succ fuel =>
    rw [node]
    split <;> exact ⟨rfl, rfl⟩

theorem node_yields {fuel : Nat} (inner : ∀ s, Yields s (body fuel s).2.2.2 (Vocabulary.ofSource.Covers (body fuel s).1))
    (found : List Label) (name : Token) (s : State) : Yields s (node (fuel + 1) found name s).2
      (Vocabulary.ofSource.Covers (node (fuel + 1) found name s).1.body) := by
  rw [node]
  split
  · have opened : Yields s s.take True := .same rfl trivial
    exact opened.trans (inner s.take) fun _ covers => covers
  · exact Yields.trans (.reported rfl trivial) (skip_yields _) fun _ _ => covers_nil _

theorem body_yields {fuel : Nat}
    (first : ∀ s, Yields s (statement fuel s).2 (Vocabulary.ofSource.Covers (statement fuel s).1.toList))
    (later : ∀ s, Yields s (body fuel s).2.2.2 (Vocabulary.ofSource.Covers (body fuel s).1)) (s : State) :
    Yields s (body (fuel + 1) s).2.2.2 (Vocabulary.ofSource.Covers (body (fuel + 1) s).1) := by
  rw [body]
  dsimp only
  split
  · have closed : Yields s s.take True := .same rfl trivial
    exact closed.trans (semicolon_yields s.peek.stop s.take) fun _ _ => covers_nil _
  · exact .reported rfl (covers_nil _)
  · exact (first s).trans (later (statement fuel s).2) fun one two => covers_append _ one two

theorem labels_none {s : State} (other : s.peek.kind ≠ .label) : labels s.rounds s = ([], s) := by
  rw [State.rounds, labels]
  simp only [other, if_false]

def declared (fuel : Nat) (found : List Label) (name : Token) (s : State) : Option Statement × State :=
  match s.peek.kind with
  | .lbrace => (some (.node (node fuel found name s).1.head (node fuel found name s).1.body), (node fuel found name s).2)
  | .equal => (some (.property (property found name s.take).1), (property found name s.take).2)
  | .semicolon => (some (.property (propertyDecl found name s.peek.stop [])), s.take)
  | _ => (some (.property (bareProperty found name s).1), (bareProperty found name s).2)

def declaration (fuel : Nat) (found : List Label) (s : State) : Option Statement × State :=
  if s.peek.kind = .name then declared fuel found s.peek s.take
  else (none, skip (s.report s.peek.range .labelWithoutName))

theorem statement_eq {fuel : Nat} {s : State} (labelled : s.peek.kind = .label ∨ s.peek.kind = .name) :
    statement (fuel + 1) s = declaration fuel (labels s.rounds s).1 (labels s.rounds s).2 := by
  have unfolded : statement (fuel + 1) s =
      if (labels s.rounds s).2.peek.kind = .name then
        declared fuel (labels s.rounds s).1 (labels s.rounds s).2.peek (labels s.rounds s).2.take
      else (none, skip ((labels s.rounds s).2.report (labels s.rounds s).2.peek.range .labelWithoutName)) := by
    rw [statement]
    generalize labels s.rounds s = result
    rcases labelled with kind | kind <;>
    · simp only [kind]
      by_cases named : result.2.peek.kind = .name
      · simp only [named, if_true]
        cases follows : result.2.take.peek.kind <;> simp only [declared, follows]
      · simp only [named, if_false]
  exact unfolded

theorem declared_yields {fuel : Nat} (inner : ∀ found name s, Yields s (node fuel found name s).2
      (Vocabulary.ofSource.Covers (node fuel found name s).1.body))
    (found : List Label) {name : Token} (named : name.kind = .name) (proper : IsName name.text) (s : State) :
    Yields s (declared fuel found name s).2 ((∀ l ∈ found, isLabelName l.name = true) →
      Vocabulary.ofSource.Covers (declared fuel found name s).1.toList) := by
  have single : ∀ decl : PropertyDecl, decl.setting.Spelled →
      Vocabulary.ofSource.Covers (some (Statement.property decl)).toList := by
    intro decl spelled
    simp only [Option.toList, Vocabulary.Covers]
    exact ⟨spelled, trivial⟩
  have taken : Yields s s.take True := .same rfl trivial
  unfold declared
  split
  · obtain ⟨heads, heading⟩ := node_head fuel found name s
    refine (inner found name s).imp ?_
    intro covers labels
    simp only [Option.toList, Vocabulary.Covers]
    refine ⟨⟨?_, ?_, covers⟩, trivial⟩
    · intro l member
      rw [heads] at member
      exact labels l member
    · rw [heading]
      simpa [headingOf, named, Heading.nodeName, Vocabulary.ofSource] using proper
  · have read := taken.trans (property_yields found proper s.take) fun _ spelled => spelled
    dsimp only
    exact read.imp fun spelled _ => single _ spelled
  · exact .same rfl fun _ => single _ (propertyDecl_spelled proper (by simp))
  · exact (bareProperty_yields found proper s).imp fun spelled _ => single _ spelled

theorem declaration_yields {fuel : Nat} (inner : ∀ found name s, Yields s (node fuel found name s).2
      (Vocabulary.ofSource.Covers (node fuel found name s).1.body))
    (s : State) (labelled : s.peek.kind = .label ∨ s.peek.kind = .name) : Yields s (statement (fuel + 1) s).2
      (Vocabulary.ofSource.Covers (statement (fuel + 1) s).1.toList) := by
  have read := labels_yields s.rounds s
  rw [statement_eq labelled]
  generalize labels s.rounds s = result at read
  obtain ⟨found, after⟩ := result
  unfold declaration
  split
  · rename_i named
    have taken : Yields after after.take True := .same rfl trivial
    have rest := declared_yields inner found named (text_name named after.cursor.next_fits) after.take
    exact read.trans (taken.trans rest fun _ covers => covers) fun labels covers => covers labels
  · exact read.trans (Yields.trans (.reported rfl trivial) (skip_yields _) fun _ _ => trivial) fun _ _ => covers_nil _

theorem statement_yields {fuel : Nat} (inner : ∀ found name s, Yields s (node fuel found name s).2
      (Vocabulary.ofSource.Covers (node fuel found name s).1.body))
    (again : ∀ s, Yields s (statement fuel s).2 (Vocabulary.ofSource.Covers (statement fuel s).1.toList)) (s : State) :
    Yields s (statement (fuel + 1) s).2 (Vocabulary.ofSource.Covers (statement (fuel + 1) s).1.toList) := by
  by_cases labelled : s.peek.kind = .label ∨ s.peek.kind = .name
  · exact declaration_yields inner s labelled
  · have taken : Yields s s.take True := .same rfl trivial
    rw [statement]
    dsimp only
    split
    · split
      · refine taken.trans (delete_yields s.peek s.take) ?_
        intro _ _
        cases (delete s.peek s.take).1 <;> simp [Vocabulary.Covers]
      · split
        · exact taken.trans (again s.take) fun _ covers => covers
        · exact Yields.trans (.reported rfl trivial) (skip_yields _) fun _ _ => covers_nil _
    · exact .reported rfl (covers_nil _)
    · rename_i kind
      exact absurd (.inl kind) labelled
    · rename_i kind
      exact absurd (.inr kind) labelled
    · exact Yields.trans (.reported rfl trivial) (skip_yields _) fun _ _ => covers_nil _
    · exact Yields.trans (.reported rfl trivial) (skip_yields _) fun _ _ => covers_nil _
    · exact .reported rfl (covers_nil _)

theorem blocks_yield (fuel : Nat) :
    (∀ found name s, Yields s (node fuel found name s).2
      (Vocabulary.ofSource.Covers (node fuel found name s).1.body)) ∧
    (∀ s, Yields s (body fuel s).2.2.2 (Vocabulary.ofSource.Covers (body fuel s).1)) ∧
    (∀ s, Yields s (statement fuel s).2 (Vocabulary.ofSource.Covers (statement fuel s).1.toList)) := by
  induction fuel with
  | zero => exact ⟨fun _ _ _ => .same rfl (covers_nil _), fun _ => .same rfl (covers_nil _), fun _ => .same rfl (covers_nil _)⟩
  | succ fuel ih =>
    obtain ⟨nodes, bodies, statements⟩ := ih
    exact ⟨node_yields bodies, body_yields statements bodies, statement_yields nodes statements⟩

theorem reservation_yields (count : Nat) (s : State) : Yields s (reservation count s).2 True := by
  fun_induction reservation count s with
  | case1 => exact .same rfl trivial
  | case2 count s t kind more after equal ih =>
    rw [equal] at ih
    exact ih.imp fun _ => trivial
  | case3 count s t kind a after equal more last again ih =>
    have first := array_yields t .w32 s.take
    rw [equal] at first
    rw [again] at ih
    have taken : Yields s s.take True := .same rfl trivial
    exact (taken.trans first fun _ _ => trivial).trans ih fun _ _ => trivial
  | case4 => exact .same rfl trivial

def headed (found : List Label) (s : State) : Option Item × State :=
  if s.peek.kind ∈ [.slash, .name, .ref, .pathRef] then
    (some (.node (node s.fuel found s.peek s.take).1), (node s.fuel found s.peek s.take).2)
  else (none, s.report s.peek.range (.expectedNode s.peek.text))

theorem item_eq {fuel : Nat} {s : State} (heads : s.peek.kind ∈ [.label, .name, .slash, .ref, .pathRef]) :
    item (fuel + 1) s = headed (labels s.rounds s).1 (labels s.rounds s).2 := by
  rw [item, headed]
  generalize labels s.rounds s = result
  simp only [List.mem_cons, List.not_mem_nil, or_false] at heads
  rcases heads with kind | kind | kind | kind | kind <;>
  · simp only [kind]
    cases result.2.peek.kind <;> rfl

theorem headed_yields (found : List Label) (s : State) : Yields s (headed found s).2
    ((∀ l ∈ found, isLabelName l.name = true) → ∀ i ∈ (headed found s).1, Vocabulary.ofSource.CoversItem i) := by
  unfold headed
  split
  · rename_i kinds
    have taken : Yields s s.take True := .same rfl trivial
    obtain ⟨heads, heading⟩ := node_head s.fuel found s.peek s.take
    refine taken.trans ((blocks_yield s.fuel).1 found s.peek s.take) ?_
    rintro _ covers labels i ⟨⟩
    refine ⟨?_, ?_, covers⟩
    · intro l member
      rw [heads] at member
      exact labels l member
    · intro name same other
      rw [heading] at same
      simp only [List.mem_cons, List.not_mem_nil, or_false] at kinds
      rcases kinds with kind | kind | kind | kind <;> simp only [headingOf, kind] at same <;> cases same
      · exact absurd rfl other
      · exact text_name kind s.cursor.next_fits
  · exact .reported rfl (by simp)

theorem item_yields (fuel : Nat) (s : State) :
    Yields s (item fuel s).2 (∀ i ∈ (item fuel s).1, Vocabulary.ofSource.CoversItem i) := by
  induction fuel generalizing s with
  | zero => exact .same rfl (by simp [item])
  | succ fuel ih =>
    have taken : Yields s s.take True := .same rfl trivial
    have plain : ∀ i : Item, (∀ decl, i ≠ .node decl) → ∀ j ∈ some i, Vocabulary.ofSource.CoversItem j := by
      rintro i other j ⟨⟩
      cases i with
      | node decl => exact absurd rfl (other decl)
      | _ => trivial
    by_cases heads : s.peek.kind ∈ [TokenKind.label, .name, .slash, .ref, .pathRef]
    · rw [item_eq heads]
      exact (labels_yields s.rounds s).trans (headed_yields _ _) fun labels covers => covers labels
    rw [item]
    dsimp only
    split
    · split
      · exact .same rfl (plain _ (by simp))
      · exact .reported rfl (by simp)
    · split
      · exact taken.trans (semicolon_yields _ _) fun _ _ => plain _ (by simp)
      · split
        · have read := taken.trans (reservation_yields 2 s.take) fun _ _ => trivial
          exact read.trans (semicolon_yields _ _) fun _ _ => plain _ (by simp)
        · split
          · unfold includeDirective
            dsimp only
            split
            · exact .same rfl (plain _ (by simp))
            · exact .reported rfl (by simp)
          · split
            · refine taken.trans (delete_yields s.peek s.take) ?_
              intro _ _ i member
              cases found : (delete s.peek s.take).1 <;> simp [found] at member
              subst member
              trivial
            · split
              · exact taken.trans (ih s.take) fun _ covers => covers
              · exact Yields.trans (.reported rfl trivial) (skip_yields _) fun _ _ => by simp
    case h_8 => exact .reported rfl (by simp)
    case h_9 => exact .reported rfl (by simp)
    all_goals
      rename_i kind
      exact absurd (by simp [kind]) heads

theorem items_yields (fuel : Nat) (s : State) :
    Yields s (items fuel s).2 (∀ i ∈ (items fuel s).1, Vocabulary.ofSource.CoversItem i) := by
  fun_induction items fuel s with
  | case1 => exact .same rfl (by simp)
  | case2 => exact .same rfl (by simp)
  | case3 fuel s _ found after equal more last again ih =>
    have first := item_yields s.rounds s
    rw [equal] at first
    rw [again] at ih
    refine first.trans ih ?_
    intro here later i member
    rcases List.mem_append.mp member with one | other
    · exact here i (Option.mem_toList.mp one)
    · exact later i other

end Parser

def Document.Balanced (d : Document) : Prop := ∀ e ∈ d.errors, e.problem ≠ .unbalancedGroup

theorem Document.parse_covers (source : Bytes) (balanced : (parse source).Balanced) :
    ∀ i ∈ (parse source).items, Vocabulary.ofSource.CoversItem i := by
  have read := Parser.items_yields (Parser.State.start source).rounds (.start source)
  refine read.2 ?_
  intro e member
  exact balanced e (List.mem_reverse.mpr member)

end DeviceTree
