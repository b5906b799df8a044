import DeviceTree.Proofs.Naming
import DeviceTree.Tree.Pins

namespace DeviceTree

theorem Bytes.le_iff (s t : Bytes) : Bytes.le s t = true ↔ s < t ∨ s = t := by
  fun_induction Bytes.le s t with
  | case1 t => cases t <;> simp
  | case2 => simp
  | case3 a s b t less => simp [List.cons_lt_cons_iff, less]
  | case4 a s b t not less =>
    have differ : a ≠ b := by
      rintro rfl
      exact not less
    simp [List.cons_lt_cons_iff, not, differ]
  | case5 a s b t not not' ih =>
    have same : a = b := UInt8.le_antisymm (UInt8.not_lt.mp not') (UInt8.not_lt.mp not)
    simp [same, ih]

def Pin.Before (a b : Pin) : Prop := a.port < b.port ∨ a.port = b.port ∧ a.pin ≤ b.pin

namespace Pin

theorem le_iff (a b : Pin) : a.le b = true ↔ a.Before b := by
  rw [le, Before]
  by_cases same : a.port = b.port
  · simp [same]
  · simp [same, Bytes.le_iff]

theorem Before.trans {a b c : Pin} (one : a.Before b) (two : b.Before c) : a.Before c := by
  rcases one with less | ⟨same, pins⟩
  · rcases two with less' | ⟨same', -⟩
    · exact .inl (List.lt_trans less less')
    · exact .inl (same' ▸ less)
  · rcases two with less' | ⟨same', pins'⟩
    · exact .inl (same ▸ less')
    · exact .inr ⟨same.trans same', Int64.le_trans pins pins'⟩

theorem before_total (a b : Pin) : a.Before b ∨ b.Before a := by
  rcases Std.lt_trichotomy a.port b.port with less | same | less
  · exact .inl (.inl less)
  · rcases Int64.le_total a.pin b.pin with pins | pins
    · exact .inl (.inr ⟨same, pins⟩)
    · exact .inr (.inr ⟨same.symm, pins⟩)
  · exact .inr (.inl less)

theorem mergeSort_before (pins : List Pin) : (pins.mergeSort le).Pairwise Before := by
  refine (List.pairwise_mergeSort ?_ ?_ pins).imp fun ordered => (le_iff _ _).mp ordered
  · intro a b c one two
    rw [le_iff] at one two ⊢
    exact one.trans two
  · intro a b
    rw [Bool.or_eq_true, le_iff, le_iff]
    exact before_total a b

end Pin

theorem count_flatMap_of_apart {α β : Type} [BEq β] [LawfulBEq β] {xs : List α} {f : α → List β} {x : α} {b : β}
    (nodup : xs.Nodup) (member : x ∈ xs) (apart : ∀ y ∈ xs, b ∈ f y → y = x) : (xs.flatMap f).count b = (f x).count b := by
  obtain ⟨front, back, rfl⟩ := List.append_of_mem member
  have others : ∀ ys : List α, x ∉ ys → (∀ y ∈ ys, y ∈ front ++ x :: back) → (ys.flatMap f).count b = 0 := by
    intro ys absent inside
    refine List.count_eq_zero.mpr fun found => ?_
    obtain ⟨y, here, made⟩ := List.mem_flatMap.mp found
    exact absent (apart y (inside y here) made ▸ here)
  rw [List.nodup_middle, List.nodup_cons, List.mem_append, not_or] at nodup
  obtain ⟨⟨left, right⟩, -⟩ := nodup
  rw [List.flatMap_append, List.flatMap_cons, List.count_append, List.count_append,
    others front left fun y here => List.mem_append_left _ here,
    others back right fun y here => List.mem_append_right _ (List.mem_cons_of_mem _ here), Nat.zero_add, Nat.add_zero]

inductive PinOrigin where
  | specifier (user : NodeId) (property : Property) (place : Nat)
  | mux (entry : NodeId) (selector : Option (NodeId × Property))
  deriving DecidableEq

def IsSelector (name : Bytes) : Prop :=
  ∃ digits, digits ≠ [] ∧ (∀ b ∈ digits, 0x30 ≤ b ∧ b ≤ 0x39) ∧ name = utf8 "pinctrl-" ++ digits

namespace Tree

def Holds (t : Tree) (user : NodeId) (p : Property) : Prop := user ∈ t.nodes ∧ p ∈ (t.node user).properties

structure Decodes (t : Tree) (id : NodeId) (pin : Pin) : Prop where
  controller : ∃ parent, (t.node id).parent = some parent ∧
    ∃ name ∈ (t.node parent).strings (utf8 "compatible"), name ∈ muxControllers
  cells : ∃ p range port range' raw number range'' raw' function rest,
    (t.node id).property? (utf8 "pinctrls") = some p ∧ port ≠ [] ∧
    p.cells = .ref ⟨range, .label (utf8 "pinmux" ++ port)⟩ :: .int range' raw (some number) ::
      .int range'' raw' (some function) :: rest ∧
    pin = ⟨utf8 "&gpio" ++ port, t.label? (utf8 "gpio" ++ port), number, some function, id, none⟩

theorem Decodes.node {t : Tree} {id : NodeId} {pin : Pin} (decodes : t.Decodes id pin) : pin.node = id := by
  obtain ⟨p, range, port, range', raw, number, range'', raw', function, rest, -, -, -, rfl⟩ := decodes.cells
  rfl

structure Selects (t : Tree) (user : NodeId) (p : Property) (id : NodeId) : Prop where
  held : t.Holds user p
  named : IsSelector p.name
  entry : ∃ e ∈ t.entries p, e.target = some id

inductive Gives (t : Tree) : PinOrigin → Pin → Prop where
  | specifier {user target : NodeId} {p : Property} {place : Nat} {e : Entry} {number : Int64} {range raw rest}
      (held : t.Holds user p) (outside : ¬ IsSelector p.name) (entry : (t.entries p)[place]? = some e)
      (leads : e.target = some target) (controller : ((t.node target).property? (utf8 "gpio-controller")).isSome)
      (cells : e.cells = .int range raw (some number) :: rest) :
      Gives t (.specifier user p place) ⟨t.portName target, some target, number, none, user, some p⟩
  | unselected {id : NodeId} {pin : Pin} (listed : id ∈ t.nodes) (decodes : t.Decodes id pin)
      (free : ∀ user p, ¬ t.Selects user p id) : Gives t (.mux id none) pin
  | selected {user id : NodeId} {p : Property} {pin : Pin} (listed : id ∈ t.nodes) (decodes : t.Decodes id pin)
      (selects : t.Selects user p id) : Gives t (.mux id (some (user, p))) { pin with property := some p }

-- The pins are what the origins give, each origin of the tree so many times.
def Lists (t : Tree) (times : PinOrigin → Nat) (pins : List Pin) : Prop :=
  ∃ given : List (PinOrigin × Pin), (given.map Prod.snd).Perm pins ∧ (∀ x ∈ given, t.Gives x.1 x.2) ∧
    ∀ origin pin, t.Gives origin pin → (given.map Prod.fst).count origin = times origin

def mentions (t : Tree) (p : Property) (id : NodeId) : Nat := (t.entries p).countP (·.target = some id)

def occurrences (t : Tree) : PinOrigin → Nat
  | .mux id (some (_, p)) => t.mentions p id
  | _ => 1

def holdings (t : Tree) : List (NodeId × Property) := t.nodes.flatMap fun id => (t.node id).properties.map (id, ·)

def specifier? (t : Tree) (user : NodeId) (p : Property) (e : Entry) : Option Pin :=
  match e.target, e.cells.head?.bind Cell.value? with
  | some target, some pin =>
    if isSelector p.name then none
    else if ((t.node target).property? (utf8 "gpio-controller")).isNone then none
    else some ⟨t.portName target, some target, pin, none, user, some p⟩
  | _, _ => none

def specifiers (t : Tree) (x : NodeId × Property) : List (PinOrigin × Pin) :=
  (t.entries x.2).zipIdx.filterMap fun e => (t.specifier? x.1 x.2 e.1).map (.specifier x.1 x.2 e.2, ·)

def decoded? (t : Tree) (id : NodeId) : Option Pin :=
  match (t.node id).parent with
  | some parent => if t.isMuxController parent then t.muxEntry? id else none
  | none => none

def selectors (t : Tree) (id : NodeId) : List (NodeId × Property) :=
  t.holdings.flatMap fun x => List.replicate (if isSelector x.2.name then t.mentions x.2 id else 0) x

def muxed (t : Tree) (mux : Pin) : List (PinOrigin × Pin) :=
  match t.selectors mux.node with
  | [] => [(.mux mux.node none, mux)]
  | found => found.map fun x => (.mux mux.node (some x), { mux with property := some x.2 })

def given (t : Tree) : List (PinOrigin × Pin) :=
  t.holdings.flatMap t.specifiers ++ (t.nodes.filterMap t.decoded?).flatMap t.muxed

theorem specifiers_snd (t : Tree) (x : NodeId × Property) : (t.specifiers x).map Prod.snd = t.pinsOf x.1 x.2 := by
  have same : t.pinsOf x.1 x.2 = ((t.entries x.2).zipIdx.map Prod.fst).filterMap (t.specifier? x.1 x.2) := by
    rw [List.zipIdx_map_fst]
    rfl
  rw [same, specifiers, List.map_filterMap, List.filterMap_map]
  congr 1
  funext e
  simp [Option.map_map, Function.comp_def]

theorem selections_filter (t : Tree) (id : NodeId) :
    (t.holdings.flatMap fun x => t.selectionsOf x.2).filter (fun x => x.1 = id) =
      (t.selectors id).map fun x => (id, x.2) := by
  have entries : ∀ (p : Property) (es : List Entry),
      (es.filterMap fun e => e.target.map (·, p)).filter (fun x => x.1 = id) =
        List.replicate (es.countP (·.target = some id)) (id, p) := by
    intro p es
    induction es with
    | nil => rfl
    | cons e es ih =>
      cases target : e.target with
      | none => simp [target, ih]
      | some other =>
        by_cases same : other = id
        · simp [target, same, ih, List.replicate_succ]
        · simp [target, same, ih]
  rw [selectors, List.filter_flatMap, List.map_flatMap]
  congr 1
  funext x
  rw [selectionsOf, List.map_replicate]
  split
  · exact entries x.2 (t.entries x.2)
  · rfl

theorem pins_eq (t : Tree) : t.pins = (t.given.map Prod.snd).mergeSort Pin.le := by
  have listed : t.pins = (t.holdings.flatMap (fun x => t.pinsOf x.1 x.2) ++
      (t.nodes.filterMap t.decoded?).flatMap fun mux =>
        match (t.holdings.flatMap fun x => t.selectionsOf x.2).filter (fun x => x.1 = mux.node) with
        | [] => [mux]
        | found => found.map fun x => { mux with property := some x.2 }).mergeSort Pin.le := rfl
  rw [listed, given, List.map_append, List.map_flatMap, List.map_flatMap]
  simp only [specifiers_snd]
  congr 3
  funext mux
  rw [selections_filter, muxed]
  cases t.selectors mux.node with
  | nil => rfl
  | cons x rest => simp [Function.comp_def]

theorem isSelector_iff (name : Bytes) : isSelector name = true ↔ IsSelector name := by
  have digit : ∀ b : UInt8, Bytes.isDigit b = true ↔ 0x30 ≤ b ∧ b ≤ 0x39 := fun b => by simp [Bytes.isDigit]
  unfold isSelector
  split
  · rename_i digits found
    rw [Bytes.dropLead_eq_some_iff] at found
    simp only [Bool.and_eq_true, Bool.not_eq_true', List.isEmpty_eq_false_iff, List.all_eq_true, digit]
    constructor
    · rintro ⟨some, all⟩
      exact ⟨digits, some, all, found⟩
    · rintro ⟨digits', some, all, whole⟩
      cases List.append_cancel_left (found.symm.trans whole)
      exact ⟨some, all⟩
  · rename_i none
    simp only [Bool.false_eq_true, false_iff]
    rintro ⟨digits, -, -, whole⟩
    rw [Bytes.dropLead_eq_some_iff.mpr whole] at none
    cases none

theorem isMuxController_iff (t : Tree) (id : NodeId) : t.isMuxController id = true ↔
    ∃ name ∈ (t.node id).strings (utf8 "compatible"), name ∈ muxControllers := by
  simp [isMuxController]

theorem decoded_iff (t : Tree) (id : NodeId) (pin : Pin) : t.decoded? id = some pin ↔ t.Decodes id pin := by
  constructor
  · intro decoded
    unfold decoded? at decoded
    split at decoded
    · rename_i parent up
      split at decoded
      · rename_i controller
        refine ⟨⟨parent, up, (t.isMuxController_iff parent).mp controller⟩, ?_⟩
        unfold muxEntry? at decoded
        split at decoded
        · rename_i range label first second rest cells
          split at decoded
          · rename_i b port number function found value value'
            obtain ⟨p, property, cells⟩ := Option.map_eq_some_iff.mp cells
            rw [Bytes.dropLead_eq_some_iff] at found
            rcases first with ⟨range', raw, _ | v⟩ | r
            · cases value
            · rcases second with ⟨range'', raw', _ | f⟩ | r
              · cases value'
              · cases value
                cases value'
                cases decoded
                exact ⟨p, range, b :: port, range', raw, _, range'', raw', _, rest, property, List.cons_ne_nil _ _,
                  found ▸ cells, rfl⟩
              · cases value'
            · cases value
          · cases decoded
        · cases decoded
      · cases decoded
    · cases decoded
  · rintro ⟨⟨parent, up, controller⟩, p, range, port, range', raw, number, range'', raw', function, rest, property, nonempty,
      cells, rfl⟩
    rw [← isMuxController_iff] at controller
    have lead := Bytes.dropLead_eq_some_iff.mpr (rfl : utf8 "pinmux" ++ port = utf8 "pinmux" ++ port)
    cases port with
    | nil => exact absurd rfl nonempty
    | cons b port =>
      simp only [decoded?, up, controller, if_true, muxEntry?, property, Option.map_some, cells, lead, Cell.value?]
      rfl

theorem specifier_iff (t : Tree) (user : NodeId) (p : Property) (e : Entry) (pin : Pin) : t.specifier? user p e = some pin ↔
    ¬ IsSelector p.name ∧ ∃ target number range raw rest, e.target = some target ∧
      ((t.node target).property? (utf8 "gpio-controller")).isSome ∧ e.cells = .int range raw (some number) :: rest ∧
      pin = ⟨t.portName target, some target, number, none, user, some p⟩ := by
  rw [← isSelector_iff]
  constructor
  · intro found
    unfold specifier? at found
    split at found
    · rename_i target number leads value
      split at found
      · cases found
      · rename_i outside
        split at found
        · cases found
        · rename_i controller
          obtain ⟨c, first, value⟩ := Option.bind_eq_some_iff.mp value
          obtain ⟨rest, cells⟩ := List.head?_eq_some_iff.mp first
          rcases c with ⟨range, raw, _ | v⟩ | r
          · cases value
          · cases value
            cases found
            exact ⟨outside, target, _, range, raw, rest, leads, by simpa [Option.isSome_iff_ne_none] using controller, cells, rfl⟩
          · cases value
    · cases found
  · rintro ⟨outside, target, number, range, raw, rest, leads, controller, cells, rfl⟩
    have present : ((t.node target).property? (utf8 "gpio-controller")).isNone = false := by
      rw [Option.isNone_eq_false_iff]
      exact controller
    simp [specifier?, leads, cells, Cell.value?, outside, present]

theorem mem_holdings (t : Tree) (x : NodeId × Property) : x ∈ t.holdings ↔ t.Holds x.1 x.2 := by
  obtain ⟨user, p⟩ := x
  simp [holdings, Holds]

theorem mem_selectors (t : Tree) (id : NodeId) (x : NodeId × Property) :
    x ∈ t.selectors id ↔ t.Selects x.1 x.2 id := by
  have some : t.mentions x.2 id ≠ 0 ↔ ∃ e ∈ t.entries x.2, e.target = some id := by
    rw [mentions, ← Nat.pos_iff_ne_zero, List.countP_pos_iff]
    simp
  constructor
  · intro member
    obtain ⟨y, held, here⟩ := List.mem_flatMap.mp member
    obtain ⟨times, rfl⟩ := List.mem_replicate.mp here
    split at times
    · rename_i named
      exact ⟨(t.mem_holdings x).mp held, (isSelector_iff _).mp named, some.mp times⟩
    · exact absurd rfl times
  · rintro ⟨held, named, entry⟩
    refine List.mem_flatMap.mpr ⟨x, (t.mem_holdings x).mpr held, List.mem_replicate.mpr ⟨?_, rfl⟩⟩
    rw [if_pos ((isSelector_iff _).mpr named)]
    exact some.mpr entry

theorem given_gives (t : Tree) : ∀ x ∈ t.given, t.Gives x.1 x.2 := by
  intro x member
  rcases List.mem_append.mp member with specifier | entry
  · obtain ⟨⟨user, p⟩, held, here⟩ := List.mem_flatMap.mp specifier
    obtain ⟨⟨e, place⟩, entry, mapped⟩ := List.mem_filterMap.mp here
    obtain ⟨pin, found, rfl⟩ := Option.map_eq_some_iff.mp mapped
    obtain ⟨outside, target, number, range, raw, rest, leads, controller, cells, rfl⟩ := (t.specifier_iff user p e pin).mp found
    exact .specifier ((t.mem_holdings _).mp held) outside (List.mem_zipIdx_iff_getElem?.mp entry) leads controller cells
  · obtain ⟨mux, decoded, here⟩ := List.mem_flatMap.mp entry
    obtain ⟨id, listed, found⟩ := List.mem_filterMap.mp decoded
    have decodes := (t.decoded_iff id mux).mp found
    obtain rfl := decodes.node
    unfold muxed at here
    split at here
    · rename_i nobody
      cases List.mem_singleton.mp here
      refine .unselected listed decodes fun user p selects => ?_
      have member := (t.mem_selectors mux.node (user, p)).mpr selects
      rw [nobody] at member
      cases member
    · obtain ⟨⟨user, p⟩, selects, rfl⟩ := List.mem_map.mp here
      exact .selected listed decodes ((t.mem_selectors mux.node (user, p)).mp selects)

theorem specifiers_fst (t : Tree) (x : NodeId × Property) : (t.specifiers x).map Prod.fst =
    (t.entries x.2).zipIdx.flatMap fun e => ((t.specifier? x.1 x.2 e.1).map fun _ => .specifier x.1 x.2 e.2).toList := by
  rw [specifiers, List.map_filterMap, List.filterMap_eq_flatMap_toList]
  congr 1
  funext e
  rw [Option.map_map]
  rfl

theorem mem_specifiers {t : Tree} {x : NodeId × Property} {origin : PinOrigin}
    (member : origin ∈ (t.specifiers x).map Prod.fst) : ∃ place, origin = .specifier x.1 x.2 place := by
  rw [specifiers_fst] at member
  obtain ⟨e, -, here⟩ := List.mem_flatMap.mp member
  obtain ⟨pin, -, rfl⟩ := Option.map_eq_some_iff.mp (Option.mem_toList.mp here)
  exact ⟨e.2, rfl⟩

theorem muxed_fst (t : Tree) (mux : Pin) : (t.muxed mux).map Prod.fst =
    if t.selectors mux.node = [] then [.mux mux.node none] else (t.selectors mux.node).map fun x => .mux mux.node (some x) := by
  rw [muxed]
  split
  · rename_i nobody
    simp [nobody]
  · rename_i found
    rw [if_neg found, List.map_map]
    rfl

theorem mem_muxed {t : Tree} {mux : Pin} {origin : PinOrigin} (member : origin ∈ (t.muxed mux).map Prod.fst) :
    ∃ selector, origin = .mux mux.node selector := by
  rw [muxed_fst] at member
  split at member
  · exact ⟨none, List.mem_singleton.mp member⟩
  · obtain ⟨x, -, rfl⟩ := List.mem_map.mp member
    exact ⟨some x, rfl⟩

theorem given_fst (t : Tree) : t.given.map Prod.fst = (t.holdings.flatMap fun x => (t.specifiers x).map Prod.fst) ++
    (t.nodes.filterMap t.decoded?).flatMap fun mux => (t.muxed mux).map Prod.fst := by
  rw [given, List.map_append, List.map_flatMap, List.map_flatMap]

-- In a tree that meets each node once and keeps one property of a name, an origin is found in one place only.
section
variable {t : Tree} (single : t.nodes.Nodup)
include single

theorem nodup_holdings (settled : ∀ id, ((t.node id).properties.map Property.name).Nodup) : t.holdings.Nodup := by
  rw [holdings, List.nodup_flatMap]
  refine ⟨fun id _ => ?_, single.imp fun differ x left right => ?_⟩
  · exact ((settled id).of_map _).map fun p q same => (Prod.ext_iff.mp same).2
  · obtain ⟨p, -, rfl⟩ := List.mem_map.mp left
    obtain ⟨q, -, same⟩ := List.mem_map.mp right
    exact differ (Prod.ext_iff.mp same).1.symm

theorem nodup_decoded : (t.nodes.filterMap t.decoded?).Nodup :=
  single.filterMap fun id id' pin found found' =>
    ((t.decoded_iff id pin).mp found).node.symm.trans ((t.decoded_iff id' pin).mp found').node

end

theorem count_specifier {t : Tree} (nodup : t.holdings.Nodup) {user : NodeId} {p : Property} {place : Nat} {pin : Pin}
    (gives : t.Gives (.specifier user p place) pin) : (t.given.map Prod.fst).count (.specifier user p place) = 1 := by
  have absent : .specifier user p place ∉
      (t.nodes.filterMap t.decoded?).flatMap fun mux => (t.muxed mux).map Prod.fst := by
    intro member
    obtain ⟨mux, -, here⟩ := List.mem_flatMap.mp member
    obtain ⟨selector, same⟩ := mem_muxed here
    cases same
  have places : (t.entries p).zipIdx.Nodup := by
    refine List.Nodup.of_map Prod.snd ?_
    rw [List.zipIdx_map_snd]
    exact List.nodup_range'
  have own : ∀ x ∈ t.holdings, .specifier user p place ∈ (t.specifiers x).map Prod.fst → x = (user, p) := by
    intro x _ member
    obtain ⟨place', same⟩ := mem_specifiers member
    cases same
    rfl
  cases gives with
  | @specifier _ target _ _ e number range raw rest held outside entry leads controller cells =>
    have found := (t.specifier_iff user p e _).mpr ⟨outside, target, number, range, raw, rest, leads, controller, cells, rfl⟩
    have here : (e, place) ∈ (t.entries p).zipIdx := List.mem_zipIdx_iff_getElem?.mpr entry
    have alone : ∀ y ∈ (t.entries p).zipIdx, .specifier user p place ∈
        ((t.specifier? user p y.1).map fun _ => PinOrigin.specifier user p y.2).toList → y = (e, place) := by
      rintro ⟨e', place'⟩ member inside
      obtain ⟨pin, -, same⟩ := Option.map_eq_some_iff.mp (Option.mem_toList.mp inside)
      cases same
      have entry' := List.mem_zipIdx_iff_getElem?.mp member
      rw [Option.some.inj (entry.symm.trans entry')]
    rw [given_fst, List.count_append, List.count_eq_zero.mpr absent, Nat.add_zero,
      count_flatMap_of_apart nodup ((t.mem_holdings (user, p)).mpr held) own, specifiers_fst,
      count_flatMap_of_apart places here alone]
    simp [found]

-- An entry is gone through once, and what it leads to is counted there.
theorem count_mux {t : Tree} (single : t.nodes.Nodup) {id : NodeId} (listed : id ∈ t.nodes) {pin : Pin}
    (decodes : t.Decodes id pin) (selector : Option (NodeId × Property)) :
    (t.given.map Prod.fst).count (.mux id selector) = ((t.muxed pin).map Prod.fst).count (.mux id selector) := by
  have absent : .mux id selector ∉ t.holdings.flatMap fun x => (t.specifiers x).map Prod.fst := by
    intro member
    obtain ⟨x, -, here⟩ := List.mem_flatMap.mp member
    obtain ⟨place, same⟩ := mem_specifiers here
    cases same
  have own : ∀ mux ∈ t.nodes.filterMap t.decoded?, .mux id selector ∈ (t.muxed mux).map Prod.fst → mux = pin := by
    intro mux decoded member
    obtain ⟨id', -, found⟩ := List.mem_filterMap.mp decoded
    obtain ⟨selector', same⟩ := mem_muxed member
    have place : id' = mux.node := ((t.decoded_iff id' mux).mp found).node.symm
    cases same
    rw [place, (t.decoded_iff _ _).mpr decodes] at found
    exact (Option.some.inj found).symm
  rw [given_fst, List.count_append, List.count_eq_zero.mpr absent, Nat.zero_add,
    count_flatMap_of_apart (nodup_decoded single) (List.mem_filterMap.mpr ⟨id, listed, (t.decoded_iff id pin).mpr decodes⟩) own]

theorem count_selectors {t : Tree} (nodup : t.holdings.Nodup) {user id : NodeId} {p : Property}
    (selects : t.Selects user p id) : (t.selectors id).count (user, p) = t.mentions p id := by
  have own : ∀ x ∈ t.holdings,
      (user, p) ∈ List.replicate (if isSelector x.2.name then t.mentions x.2 id else 0) x → x = (user, p) :=
    fun x _ member => (List.eq_of_mem_replicate member).symm
  rw [selectors, count_flatMap_of_apart nodup ((t.mem_holdings (user, p)).mpr selects.held) own,
    if_pos ((isSelector_iff _).mpr selects.named), List.count_replicate_self]

theorem count_given {t : Tree} (single : t.nodes.Nodup) (settled : ∀ id, ((t.node id).properties.map Property.name).Nodup)
    {origin : PinOrigin} {pin : Pin} (gives : t.Gives origin pin) :
    (t.given.map Prod.fst).count origin = t.occurrences origin := by
  have nodup := nodup_holdings single settled
  cases gives with
  | specifier held outside entry leads controller cells =>
    exact count_specifier nodup (.specifier held outside entry leads controller cells)
  | @unselected id pin listed decodes free =>
    have nobody : t.selectors pin.node = [] := by
      refine List.eq_nil_iff_forall_not_mem.mpr fun x member => ?_
      rw [decodes.node, mem_selectors] at member
      exact free x.1 x.2 member
    rw [count_mux single listed decodes, muxed_fst, if_pos nobody, decodes.node]
    simp [occurrences]
  | @selected user id p pin listed decodes selects =>
    have somebody : t.selectors pin.node ≠ [] := by
      rw [decodes.node]
      exact List.ne_nil_of_mem ((t.mem_selectors id (user, p)).mpr selects)
    rw [count_mux single listed decodes, muxed_fst, if_neg somebody, decodes.node, occurrences,
      List.count_map_of_injective _ _ fun x y same => Option.some.inj (PinOrigin.mux.inj same).2, count_selectors nodup selects]

theorem Gives.determined {t : Tree} {origin : PinOrigin} {a b : Pin} (one : t.Gives origin a) (two : t.Gives origin b) :
    a = b := by
  have same : ∀ {id : NodeId} {a b : Pin}, t.Decodes id a → t.Decodes id b → a = b := fun one two =>
    Option.some.inj (((t.decoded_iff _ _).mpr one).symm.trans ((t.decoded_iff _ _).mpr two))
  cases one with
  | specifier held outside entry leads controller cells =>
    cases two with
    | specifier _ _ entry' leads' _ cells' =>
      cases Option.some.inj (entry.symm.trans entry')
      cases Option.some.inj (leads.symm.trans leads')
      cases (List.cons.inj (cells.symm.trans cells')).1
      rfl
  | unselected _ decodes _ =>
    cases two with
    | unselected _ decodes' _ => exact same decodes decodes'
  | selected _ decodes _ =>
    cases two with
    | selected _ decodes' _ => rw [same decodes decodes']

structure PinsListed (t : Tree) : Prop where
  ordered : t.pins.Pairwise Pin.Before
  determined : ∀ origin a b, t.Gives origin a → t.Gives origin b → a = b
  listed : t.Lists t.occurrences t.pins
  -- Each origin has its pin listed just once, just if no property selects an entry by more than one reference.
  once_iff : t.Lists (fun _ => 1) t.pins ↔
    ∀ id ∈ t.nodes, ∀ pin, t.Decodes id pin → ∀ user p, t.Selects user p id → t.mentions p id = 1

theorem occurrences_pos {t : Tree} {origin : PinOrigin} {pin : Pin} (gives : t.Gives origin pin) :
    1 ≤ t.occurrences origin := by
  cases gives with
  | specifier => exact Nat.le_refl 1
  | unselected => exact Nat.le_refl 1
  | selected _ _ selects =>
    refine List.countP_pos_iff.mpr ?_
    simpa using selects.entry

-- With as many elements, fewer of none means as many of each.
theorem lists_once_iff {t : Tree} {pins : List Pin} (listed : t.Lists t.occurrences pins) : t.Lists (fun _ => 1) pins ↔
    ∀ origin pin, t.Gives origin pin → t.occurrences origin = 1 := by
  obtain ⟨given, perm, sound, count⟩ := listed
  constructor
  · rintro ⟨once, perm', sound', count'⟩ origin pin gives
    have fewer : (once.map Prod.fst).Subperm (given.map Prod.fst) := by
      refine List.subperm_ext_iff.mpr fun o member => ?_
      obtain ⟨x, present, rfl⟩ := List.mem_map.mp member
      rw [count' _ _ (sound' x present), count _ _ (sound' x present)]
      exact occurrences_pos (sound' x present)
    have lengths : (given.map Prod.fst).length ≤ (once.map Prod.fst).length := by
      have one := perm.length_eq
      have two := perm'.length_eq
      simp only [List.length_map] at one two ⊢
      omega
    have same := (fewer.perm_of_length_le lengths).count_eq origin
    rw [count' _ _ gives, count _ _ gives] at same
    exact same.symm
  · intro all
    exact ⟨given, perm, sound, fun origin pin gives => (count origin pin gives).trans (all origin pin gives)⟩

theorem pinsListed_of_nodup {t : Tree} (single : t.nodes.Nodup)
    (settled : ∀ id, ((t.node id).properties.map Property.name).Nodup) : t.PinsListed := by
  have listed : t.Lists t.occurrences t.pins := by
    refine ⟨t.given, ?_, t.given_gives, fun origin pin gives => count_given single settled gives⟩
    rw [pins_eq]
    exact (List.mergeSort_perm _ _).symm
  refine ⟨?_, fun _ _ _ => Gives.determined, listed, ?_⟩
  · rw [pins_eq]
    exact Pin.mergeSort_before _
  · rw [lists_once_iff listed]
    constructor
    · intro all id here pin decodes user p selects
      exact all _ _ (.selected here decodes selects)
    · intro all origin pin gives
      cases gives with
      | specifier => rfl
      | unselected => rfl
      | selected here decodes selects => exact all _ here _ decodes _ _ selects

theorem merge_settled (name : Bytes) (roots : List Bytes) (files : List File) (bindings : Option Catalog) :
    (merge name roots files bindings).nodes.Nodup ∧
      ∀ id, (((merge name roots files bindings).node id).properties.map Property.name).Nodup := by
  have lawful : Merge.Lawful .unrestricted (roots.foldl (Merge.addRoot files) .empty) :=
    (Merge.roots_moves (fun _ _ i _ => Vocabulary.coversItem_unrestricted i) roots).lawful (Merge.empty_lawful _)
  exact ⟨lawful.valid.shaped.nodup_below _ _, fun id => (lawful.worded id).settled⟩

theorem merge_pinsListed (name : Bytes) (roots : List Bytes) (files : List File) (bindings : Option Catalog) :
    (merge name roots files bindings).PinsListed :=
  pinsListed_of_nodup (merge_settled name roots files bindings).1 (merge_settled name roots files bindings).2

def twiceText : Bytes :=
  utf8 "/ \x7b p \x7b compatible = \"listenai,csk-pinctrl\"; u: u \x7b pinctrls = <&pinmuxa 5 2>; \x7d; \x7d; " ++
    utf8 "c \x7b pinctrl-0 = <&u &u>; \x7d; \x7d;"

def twice : Tree := merge [] [utf8 "/a.dts"] [.ofText (.ofTable []) [] (utf8 "/a.dts") twiceText] none

def twicePin : Pin := ⟨utf8 "&gpioa", none, 5, some 2, 2, none⟩

def twiceRef (column : Nat) : Ref := ⟨⟨⟨1, column⟩, ⟨1, column + 2⟩⟩, .label (utf8 "u")⟩

theorem twice_facts : twice.nodes = [0, 1, 2, 3] ∧ twice.decoded? 2 = some twicePin ∧
    (twice.node 3).properties.map (fun p => (p.name, p.cells)) =
      [(utf8 "pinctrl-0", [.ref (twiceRef 103), .ref (twiceRef 106)])] ∧
    twice.resolve (.label (utf8 "u")) = some 2 ∧
    Registers.count? (twice.node 2) (utf8 "#" ++ (utf8 "pinctrl-0" ++ utf8 "-cells")) = none := by
  decide +kernel

theorem twice_entries {p : Property} (name : p.name = utf8 "pinctrl-0")
    (cells : p.cells = [.ref (twiceRef 103), .ref (twiceRef 106)]) :
    twice.entries p = [⟨twiceRef 103, some 2, []⟩, ⟨twiceRef 106, some 2, []⟩] := by
  obtain ⟨-, -, -, leads, count⟩ := twice_facts
  have space : specifierSpace p.name (twice.rule? p) = utf8 "pinctrl-0" := by
    have unruled : twice.rule? p = none := by
      rw [rule?]
      cases twice.nodeOf? p <;> rfl
    rw [unruled, name]
    decide
  have each : ∀ column, twice.resolve (twiceRef column).target = some 2 := fun _ => leads
  rw [entries, space, cells]
  simp [entriesOf, each, count, specifierLength, Cell.isRef]

theorem twice_not_once : ¬ twice.Lists (fun _ => 1) twice.pins := by
  obtain ⟨nodes, decoded, settings, -, -⟩ := twice_facts
  obtain ⟨p, properties, own⟩ := List.map_eq_singleton_iff.mp settings
  obtain ⟨name, cells⟩ := Prod.mk.inj own
  have entries := twice_entries name cells
  have selects : twice.Selects 3 p 2 := by
    refine ⟨⟨by simp [nodes], by simp [properties]⟩, ?_, ⟨twiceRef 103, some 2, []⟩, by simp [entries], rfl⟩
    exact ⟨utf8 "0", by decide, by decide, name⟩
  have mentions : twice.mentions p 2 = 2 := by simp [Tree.mentions, entries]
  obtain ⟨single, settled⟩ := merge_settled [] [utf8 "/a.dts"] [.ofText (.ofTable []) [] (utf8 "/a.dts") twiceText] none
  have listed : twice.PinsListed := pinsListed_of_nodup single settled
  intro once
  have one := listed.once_iff.mp once 2 (by simp [nodes]) twicePin ((twice.decoded_iff _ _).mp decoded) 3 p selects
  rw [mentions] at one
  cases one

end Tree
end DeviceTree
