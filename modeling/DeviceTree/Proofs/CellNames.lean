import DeviceTree.Proofs.Entries
import DeviceTree.Proofs.Origins
import DeviceTree.Proofs.Taking
import DeviceTree.Server.Hover

namespace DeviceTree
open Lexer

inductive Rising : Position → List Cell → Position → Prop where
  | nil {low high : Position} (order : low ≤ high) : Rising low [] high
  | cons {low mid high : Position} {c : Cell} {more : List Cell} (behind : low ≤ c.range.start)
      (before : c.range.start < mid) (rest : Rising mid more high) : Rising low (c :: more) high

namespace Rising
variable {low lower mid high : Position} {front back cells : List Cell}

theorem from_lower (order : lower ≤ low) (rising : Rising low cells high) : Rising lower cells high := by
  cases rising with
  | nil inOrder => exact .nil (order.trans inOrder)
  | cons behind before rest => exact .cons (order.trans behind) before rest

theorem append (one : Rising low front mid) (two : Rising mid back high) : Rising low (front ++ back) high := by
  induction one with
  | nil order => exact two.from_lower order
  | cons behind before _ ih => exact .cons behind before (ih two)

theorem behind (rising : Rising low cells high) : ∀ c ∈ cells, low ≤ c.range.start := by
  induction rising with
  | nil => exact List.forall_mem_nil _
  | cons behind before _ ih =>
    exact List.forall_mem_cons.mpr ⟨behind, fun c member => (behind.trans before.le).trans (ih c member)⟩

theorem nodup (rising : Rising low cells high) : cells.Nodup := by
  induction rising with
  | nil => exact List.nodup_nil
  | cons _ before rest ih =>
    exact List.nodup_cons.mpr ⟨fun again => absurd (rest.behind _ again) (not_le.mpr before), ih⟩

end Rising

namespace Value

def cells : Value → List Cell
  | .array a => a.cells
  | _ => []

end Value

theorem Property.cells_eq (p : Property) : p.cells = p.decl.values.flatMap Value.cells := rfl

namespace Parser
variable {s : State}

theorem State.place_le_take (s : State) : s.place ≤ s.take.place := s.place_le_stop.trans s.place_take.ge

theorem token_rising {c : Cell} {more : List Cell} {mid high : Position} (ahead : s.peek.kind ≠ .eof)
    (start : c.range.start = s.peek.start) (onward : s.take.place ≤ mid) (rest : Rising mid more high) :
    Rising s.place (c :: more) high := by
  refine .cons (start ▸ s.place_le_peek) ?_ rest
  have proper : s.peek.start < s.peek.stop := Cursor.next_proper ahead
  rw [start]
  exact proper.trans_le (s.place_take.ge.trans onward)

theorem cells_rising (fuel : Nat) (s : State) : Rising s.place (cells fuel s).1 (cells fuel s).2.2.place := by
  fun_induction cells fuel s with
  | case1 s => exact .nil le_rfl
  | case2 fuel s t kind => exact .nil s.place_le_take
  | case3 fuel s t kind more rest equal ih =>
    rw [equal] at ih
    exact token_rising (by simp [show s.peek.kind = .name from kind]) rfl le_rfl ih
  | case4 fuel s t kind more rest equal ih =>
    rw [equal] at ih
    exact token_rising (by simp [show s.peek.kind = .char from kind]) rfl le_rfl ih
  | case5 fuel s t kind more rest equal ih =>
    rw [equal] at ih
    exact token_rising (by simp [show s.peek.kind = .ref from kind]) rfl le_rfl ih
  | case6 fuel s t kind more rest equal ih =>
    rw [equal] at ih
    exact token_rising (by simp [show s.peek.kind = .pathRef from kind]) rfl le_rfl ih
  | case7 fuel s t kind opened group text range after closed more rest equal ih =>
    rw [equal] at ih
    exact token_rising (by simp [show s.peek.kind = .lparen from kind]) rfl (Cursor.le_pastGroup s.take.cursor) ih
  | case8 fuel s t kind opened group text range after open_ more rest equal ih =>
    rw [equal] at ih
    exact token_rising (by simp [show s.peek.kind = .lparen from kind]) rfl (Cursor.le_pastGroup s.take.cursor) ih
  | case9 fuel s t => exact .nil le_rfl

theorem byteElements_place (fuel : Nat) (s : State) : s.place ≤ (byteElements fuel s).2.2.place := by
  fun_induction byteElements fuel s with
  | case2 fuel s t kind => exact s.place_le_take
  | case3 fuel s t kind found good equal next more rest again ih =>
    rw [again] at ih
    refine le_trans ?_ ih
    cases good <;> exact s.place_le_take
  | _ => exact le_rfl

theorem chosenWidth_place (s : State) : s.place ≤ (chosenWidth s).2.place := by
  unfold chosenWidth
  split
  · split <;> exact s.place_le_take
  · exact le_rfl

theorem array_rising (t : Token) (width : Width) (s : State) :
    Rising s.place (array t width s).1.cells (array t width s).2.place :=
  cells_rising s.rounds s

theorem sizedArray_rising (t size : Token) (width : Width) (s : State) :
    Rising s.place ((sizedArray t size width s).1.toList.flatMap Value.cells) (sizedArray t size width s).2.place := by
  unfold sizedArray
  split
  · simpa [Value.cells] using (array_rising s.peek width s.take).from_lower s.place_le_take
  · exact .nil le_rfl

theorem value_rising (s : State) :
    Rising s.place ((value s).1.toList.flatMap Value.cells) (value s).2.place := by
  have taken : Rising s.place [] s.take.place := .nil s.place_le_take
  unfold value
  dsimp only
  split
  · split <;> exact taken
  · simpa [Value.cells] using (array_rising s.peek .w32 s.take).from_lower s.place_le_take
  · exact .nil (s.place_le_take.trans (byteElements_place _ _))
  · exact taken
  · exact taken
  · split
    · rw [wideArray_eq]
      exact (sizedArray_rising _ _ _ _).from_lower (s.place_le_take.trans (chosenWidth_place s.take))
    · exact .nil le_rfl
  · split <;> exact taken
  · exact .nil le_rfl

theorem values_rising (fuel : Nat) (stop : Position) (s : State) :
    Rising s.place ((values fuel stop s).1.flatMap Value.cells) (values fuel stop s).2.2.place := by
  fun_induction values fuel stop s with
  | case1 stop s => exact .nil le_rfl
  | case2 fuel stop s after equal =>
    have first := value_rising s
    rw [equal] at first
    exact first
  | case3 fuel stop s v after equal comma more rest again ih =>
    have first := value_rising s
    rw [equal] at first
    rw [again] at ih
    simp only [Option.toList, List.flatMap_singleton] at first
    exact first.append (ih.from_lower after.place_le_take)
  | case4 fuel stop s v after equal last =>
    have first := value_rising s
    rw [equal] at first
    exact first

end Parser

-- No cell of a declaration occurs again in it: each has its own place in the source.
theorem Property.cells_nodup {p : Property} {source : Bytes} (parsed : p.decl ∈ (Document.parse source).properties) :
    p.cells.Nodup := by
  cases Document.properties_made source p.decl parsed with
  | property fuel stop s values =>
    rw [p.cells_eq, values]
    exact (Parser.values_rising fuel stop s).nodup

namespace Tree

abbrev Slot := Nat × Nat

def textAt (names : List (List Bytes)) (slot : Option Slot) : Bytes :=
  (slot.bind fun at_ => (names[at_.1]?).bind (·[at_.2]?)).getD []

-- Where a cell has its own name: in the names of its entry, if these are enough.
def ownSlot (names : List (List Bytes)) (entry place : Nat) : Option Slot :=
  if place < (names.getD entry []).length then some (entry, place) else none

def slotInTurn : List (List Bytes) → Nat → Option Slot
  | [], _ => none
  | list :: rest, index =>
    if index < list.length then some (0, index)
    else (slotInTurn rest (index - list.length)).map fun at_ => (at_.1 + 1, at_.2)

-- Where the name of a cell is looked up by its place among all cells.
def slotAt (names : List (List Bytes)) (index : Nat) : Option Slot :=
  match names with
  | [list] => if list = [] then none else some (0, index % list.length)
  | lists => slotInTurn lists index

-- When a cell is looked up where its own name is, or nowhere if it has none. Before its entry stand `offset` cells.
inductive Straight : List (List Bytes) → (offset entry place : Nat) → Prop where
  | alone {list : List Bytes} {offset place : Nat} (named : place < list.length) (rounds : list.length ∣ offset) :
      Straight [list] offset 0 place
  | blank {offset entry place : Nat} : Straight [[]] offset entry place
  | level {names : List (List Bytes)} {entry place : Nat} (several : names.length ≠ 1)
      (named : place < (names.getD entry []).length) : Straight names (names.take entry).flatten.length entry place
  | past {names : List (List Bytes)} {offset entry place : Nat} (several : names.length ≠ 1)
      (unnamed : (names.getD entry []).length ≤ place) (behind : names.flatten.length ≤ offset + place) :
      Straight names offset entry place

theorem slotInTurn_some {names : List (List Bytes)} {index entry place : Nat} :
    slotInTurn names index = some (entry, place) ↔
      place < (names.getD entry []).length ∧ index = (names.take entry).flatten.length + place := by
  induction names generalizing index entry with
  | nil => simp [slotInTurn]
  | cons list rest ih =>
    rw [slotInTurn]
    cases entry with
    | zero =>
      split
      · simp; omega
      · simp; omega
    | succ entry =>
      split
      · simp; omega
      · simp [ih]; omega

theorem slotInTurn_none {names : List (List Bytes)} {index : Nat} :
    slotInTurn names index = none ↔ names.flatten.length ≤ index := by
  induction names generalizing index with
  | nil => simp [slotInTurn]
  | cons list rest ih =>
    rw [slotInTurn]
    split
    · simp; omega
    · simp [ih]; omega

theorem textAt_succ (list : List Bytes) (rest : List (List Bytes)) (slot : Option Slot) :
    textAt (list :: rest) (slot.map fun at_ => (at_.1 + 1, at_.2)) = textAt rest slot := by
  cases slot <;> rfl

theorem flatten_getD (names : List (List Bytes)) (index : Nat) :
    names.flatten.getD index [] = textAt names (slotInTurn names index) := by
  induction names generalizing index with
  | nil => rfl
  | cons list rest ih =>
    rw [slotInTurn, List.flatten_cons]
    split
    · rename_i here
      simp [textAt, List.getElem?_append_left here]
    · rename_i beyond
      rw [textAt_succ, ← ih, List.getD_append_right _ _ _ _ (Nat.not_lt.mp beyond)]

theorem slotAt_several {names : List (List Bytes)} (several : names.length ≠ 1) (index : Nat) :
    slotAt names index = slotInTurn names index := by
  unfold slotAt
  split
  · exact absurd rfl several
  · rfl

theorem nameAt_eq (names : List (List Bytes)) (index : Nat) : nameAt names index = textAt names (slotAt names index) := by
  unfold nameAt
  split
  · rename_i list
    by_cases empty : list = []
    · simp [empty, slotAt, textAt]
    · simp [empty, slotAt, textAt]
  · rename_i several
    rw [slotAt_several (fun one => (List.length_eq_one_iff.mp one).elim several), flatten_getD]

theorem slotInTurn_own_iff {names : List (List Bytes)} {offset entry place : Nat} (several : names.length ≠ 1) :
    slotInTurn names (offset + place) = ownSlot names entry place ↔ Straight names offset entry place := by
  unfold ownSlot
  split
  · rename_i named
    rw [slotInTurn_some]
    constructor
    · rintro ⟨-, same⟩
      cases Nat.add_right_cancel same
      exact .level several named
    · intro straight
      cases straight with
      | alone => exact absurd rfl several
      | blank => exact absurd rfl several
      | level => exact ⟨named, rfl⟩
      | past _ unnamed => exact absurd named (Nat.not_lt.mpr unnamed)
  · rename_i unnamed
    rw [slotInTurn_none]
    constructor
    · exact .past several (Nat.not_lt.mp unnamed)
    · intro straight
      cases straight with
      | alone => exact absurd rfl several
      | blank => exact absurd rfl several
      | level _ named => exact absurd named unnamed
      | past _ _ behind => exact behind

theorem slotAt_single_iff {list : List Bytes} {offset entry place : Nat} :
    slotAt [list] (offset + place) = ownSlot [list] entry place ↔ Straight [list] offset entry place := by
  by_cases empty : list = []
  · subst empty
    exact ⟨fun _ => .blank, fun _ => by simp [slotAt, ownSlot]⟩
  simp only [slotAt, if_neg empty, ownSlot]
  constructor
  · intro same
    split at same
    · rename_i named
      obtain ⟨rfl, round⟩ := Prod.mk.inj (Option.some.inj same)
      change place < list.length at named
      have apart : offset + place ≡ 0 + place [MOD list.length] := by
        rw [Nat.ModEq, round, Nat.zero_add, Nat.mod_eq_of_lt named]
      exact .alone named (Nat.modEq_zero_iff_dvd.mp (apart.add_right_cancel' place))
    · cases same
  · intro straight
    cases straight with
    | alone named rounds =>
      obtain ⟨times, rfl⟩ := rounds
      rw [Nat.mul_add_mod, Nat.mod_eq_of_lt named]
      exact (if_pos named).symm
    | blank => exact absurd rfl empty
    | level several => exact absurd rfl several
    | past several => exact absurd rfl several

theorem slotAt_own_iff (names : List (List Bytes)) (offset entry place : Nat) :
    slotAt names (offset + place) = ownSlot names entry place ↔ Straight names offset entry place := by
  by_cases several : names.length ≠ 1
  · rw [slotAt_several several]
    exact slotInTurn_own_iff several
  · obtain ⟨list, rfl⟩ := List.length_eq_one_iff.mp (not_not.mp several)
    exact slotAt_single_iff

section Entry
variable {t : Tree} {p : Property} {c : Cell} {front back : List Cell}

theorem fresh_of_split (distinct : p.cells.Nodup) (place : p.cells = front ++ c :: back) : c ∉ front := by
  rw [place] at distinct
  exact fun early => (List.nodup_append.mp distinct).2.2 c early c List.mem_cons_self rfl

theorem idxOf_split (distinct : p.cells.Nodup) (place : p.cells = front ++ c :: back) :
    p.cells.idxOf c = front.length := by
  rw [place, List.idxOf_append_of_notMem (fresh_of_split distinct place), List.idxOf_cons_self, Nat.add_zero]

theorem cellName_at {found : Option (List (List Bytes))} (listed : t.cellNames? p = .ok found)
    (distinct : p.cells.Nodup) (place : p.cells = front ++ c :: back) :
    t.cellName p c = .ok (nameAt (found.getD []) front.length) := by
  have none : front.findIdx? (· = c) = none :=
    List.findIdx?_eq_none_iff.mpr fun d early =>
      decide_eq_false fun same => fresh_of_split distinct place (same ▸ early)
  have index : p.cells.findIdx? (· = c) = some front.length := by
    rw [place, List.findIdx?_append, none, List.findIdx?_cons]
    simp
  rw [cellName, listed]
  unfold nameOf
  rw [index]
  cases found <;> rfl

end Entry

def ownName (names : List (List Bytes)) (entry place : Nat) : Bytes := ((names[entry]?).bind (·[place]?)).getD []

theorem textAt_own (names : List (List Bytes)) (entry place : Nat) :
    textAt names (ownSlot names entry place) = ownName names entry place := by
  unfold ownSlot ownName
  split
  · rfl
  · rename_i unnamed
    rw [List.getD_eq_getElem?_getD] at unnamed
    cases list : names[entry]? with
    | none => rfl
    | some list =>
      rw [Option.bind_some, List.getElem?_eq_none (by simpa [list] using unnamed)]
      rfl

-- Another place is read than that of the cell's own name, and it happens to hold the same text.
def Homonym (names : List (List Bytes)) (offset entry place : Nat) : Prop :=
  slotAt names (offset + place) ≠ ownSlot names entry place ∧
    textAt names (slotAt names (offset + place)) = ownName names entry place

section Parsed
variable {source : Bytes} {p : Property} {t : Tree} {before after : List Entry} {e : Entry} {front back : List Cell} {c : Cell}
  {found : Option (List (List Bytes))}

theorem cellName_read (listed : t.cellNames? p = .ok found) (parsed : p.decl ∈ (Document.parse source).properties)
    (entry : t.entries p = before ++ e :: after) (cell : e.cells = front ++ c :: back) :
    t.cellName p c = .ok (textAt (found.getD [])
      (slotAt (found.getD []) (p.cells.idxOf (.ref e.ref) + (front.length + 1)))) := by
  have distinct := Property.cells_nodup parsed
  obtain ⟨lead, rest, whole⟩ := cells_of_entry entry
  have place : p.cells = (lead ++ .ref e.ref :: front) ++ c :: (back ++ rest) := by
    rw [whole, cell]
    simp
  have name := cellName_at listed distinct place
  rw [List.length_append, List.length_cons, nameAt_eq] at name
  rw [name, idxOf_split distinct whole]

-- A cell behind a reference is shown with the name that its own entry has for it exactly if it stands straight, or the
-- wrong name is the same text. The reference itself is at the first place of its entry.
theorem cellName_own_iff (listed : t.cellNames? p = .ok found) (parsed : p.decl ∈ (Document.parse source).properties)
    (entry : t.entries p = before ++ e :: after) (cell : e.cells = front ++ c :: back) :
    t.cellName p c = .ok (ownName (found.getD []) before.length (front.length + 1)) ↔
      Straight (found.getD []) (p.cells.idxOf (.ref e.ref)) before.length (front.length + 1) ∨
        Homonym (found.getD []) (p.cells.idxOf (.ref e.ref)) before.length (front.length + 1) := by
  rw [cellName_read listed parsed entry cell, Except.ok.injEq, ← slotAt_own_iff]
  constructor
  · exact fun same => (em _).imp_right fun other => ⟨other, same⟩
  · rintro (same | ⟨-, text⟩)
    · rw [same, textAt_own]
    · exact text

theorem cellName_fitting (parsed : p.decl ∈ (Document.parse source).properties)
    (entry : t.entries p = before ++ e :: after) (cell : e.cells = front ++ c :: back) {names : List (List Bytes)}
    (listed : t.cellNames? p = .ok (some names)) (whole : p.cells = (t.entries p).flatMap fun e => .ref e.ref :: e.cells)
    (fits : names.map List.length = (t.entries p).map fun e => e.cells.length + 1) :
    t.cellName p c = .ok (ownName names before.length (front.length + 1)) := by
  have offset : p.cells.idxOf (.ref e.ref) = (names.take before.length).flatten.length := by
    rw [entry, List.flatMap_append, List.flatMap_cons, List.cons_append] at whole
    rw [idxOf_split (Property.cells_nodup parsed) whole, List.length_flatten, List.map_take, fits, entry, List.map_append,
      List.take_left' (List.length_map _), List.length_flatMap]
    rfl
  have width : (names.map List.length)[before.length]? = some (e.cells.length + 1) := by
    rw [fits, entry]
    simp
  obtain ⟨list, own, same⟩ := Option.map_eq_some_iff.mp (List.getElem?_map ▸ width)
  have named : front.length + 1 < (names.getD before.length []).length := by
    rw [List.getD_eq_getElem?_getD, own, Option.getD_some, same, cell, List.length_append, List.length_cons]
    omega
  have straight : Straight names (p.cells.idxOf (.ref e.ref)) before.length (front.length + 1) := by
    rw [offset]
    by_cases several : names.length ≠ 1
    · exact .level several named
    · obtain ⟨only, rfl⟩ := List.length_eq_one_iff.mp (not_not.mp several)
      have first : before.length = 0 := Nat.lt_one_iff.mp (List.getElem?_eq_some_iff.mp own).1
      rw [first] at named ⊢
      exact .alone named (dvd_zero _)
  rw [cellName_read listed parsed entry cell, Option.getD_some, (slotAt_own_iff _ _ _ _).mpr straight, textAt_own]

end Parsed

def mixedText : Bytes :=
  utf8 "/ \x7b u: u \x7b compatible = \"u\"; gpios = <&u 3 &g 1 &u 5>; \x7d; g: g \x7b \x7d; \x7d;"

def listRule : PropertyRule := ⟨utf8 "gpios", some .phandleArray, false, false, none, none, none, [], []⟩

def pinBinding : Binding :=
  ⟨utf8 "/u.yaml", utf8 "u", [], [], [], [(utf8 "gpios", listRule)], [(utf8 "gpio", [utf8 "pin"])], [], none⟩

def mixedFile : File := .ofText (.ofTable []) [] (utf8 "/a.dts") mixedText

def mixedTree : Tree := merge [] [mixedFile.path] [mixedFile] (some ⟨[pinBinding]⟩)

def mixedCell (column : Nat) (digit : String) (value : Nat) : Cell :=
  .int ⟨⟨1, column⟩, ⟨1, column + 1⟩⟩ (utf8 digit) (some (.ofNat value))

def mixedEntry (column : Nat) (label : String) (id : NodeId) (c : Cell) : Entry :=
  ⟨⟨⟨⟨1, column⟩, ⟨1, column + 2⟩⟩, .label (utf8 label)⟩, some id, [c]⟩

def mixedEntries : List Entry :=
  [mixedEntry 39 "u" 1 (mixedCell 42 "3" 3), mixedEntry 44 "g" 2 (mixedCell 47 "1" 1),
    mixedEntry 49 "u" 1 (mixedCell 52 "5" 5)]

def mixedList : Property :=
  ⟨⟨⟨⟨1, 30⟩, ⟨1, 55⟩⟩, ⟨⟨1, 30⟩, ⟨1, 35⟩⟩, [], utf8 "gpios",
    [.array ⟨⟨⟨1, 38⟩, ⟨1, 54⟩⟩, .w32, mixedEntries.flatMap fun e => .ref e.ref :: e.cells⟩]⟩, 1⟩

def mixedNames : List (List Bytes) :=
  [[utf8 "phandle", utf8 "pin"], [utf8 "phandle"], [utf8 "phandle", utf8 "pin"]]

theorem mixed_facts : (Document.parse mixedText).properties.getLast? = some mixedList.decl ∧
    (mixedTree.rule? mixedList).bind PropertyRule.kind = some .phandleArray ∧
    mixedTree.entries mixedList = mixedEntries ∧ mixedTree.cellNames? mixedList = .ok (some mixedNames) ∧
    mixedTree.cellName mixedList (mixedCell 47 "1" 1) = .ok (utf8 "phandle") := by
  cbv

theorem first_entry_named : mixedTree.cellNames? mixedList = .ok (some mixedNames) ∧
    mixedList.decl ∈ (Document.parse mixedText).properties ∧ mixedTree.entries mixedList = mixedEntries ∧
    mixedTree.cellName mixedList (mixedCell 42 "3" 3) = .ok (utf8 "pin") := by
  obtain ⟨last, -, entries, names, -⟩ := mixed_facts
  have parsed := List.mem_of_getLast? last
  have first : mixedTree.entries mixedList = [] ++ mixedEntry 39 "u" 1 (mixedCell 42 "3" 3) :: mixedEntries.tail := entries
  have cell : (mixedEntry 39 "u" 1 (mixedCell 42 "3" 3)).cells = [] ++ mixedCell 42 "3" 3 :: [] := rfl
  have named := cellName_own_iff names parsed first cell
  exact ⟨names, parsed, entries, named.mpr (.inl (@Straight.level mixedNames 0 1 (by decide) (by decide)))⟩

-- The number behind the second reference, which has no name, is shown with the name of the third reference.
theorem second_entry_misnamed : mixedList.decl ∈ (Document.parse mixedText).properties ∧
    (mixedTree.rule? mixedList).bind PropertyRule.kind = some .phandleArray ∧
    (∃ first e last, mixedTree.entries mixedList = [first, e, last] ∧ e.cells = [mixedCell 47 "1" 1]) ∧
    mixedTree.cellNames? mixedList = .ok (some mixedNames) ∧
    mixedTree.cellName mixedList (mixedCell 47 "1" 1) = .ok (utf8 "phandle") ∧ ownName mixedNames 1 1 = [] := by
  obtain ⟨last, kind, entries, names, shown⟩ := mixed_facts
  exact ⟨List.mem_of_getLast? last, kind, ⟨_, _, _, entries, rfl⟩, names, shown, rfl⟩

end Tree
end DeviceTree
