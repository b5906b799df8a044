import DeviceTree.Proofs.Naming

namespace DeviceTree

theorem getElem?_append_iff {α : Type} {front back : List α} {i : Nat} {x : α} :
    (front ++ back)[i]? = some x ↔ front[i]? = some x ∨ ∃ k, i = front.length + k ∧ back[k]? = some x := by
  rcases Nat.lt_or_ge i front.length with inner | outer
  · rw [List.getElem?_append_left inner, or_iff_left]
    rintro ⟨k, rfl, -⟩
    omega
  · rw [List.getElem?_append_right outer, List.getElem?_eq_none outer]
    constructor
    · exact fun found => .inr ⟨i - front.length, by omega, found⟩
    · rintro (none | ⟨k, rfl, found⟩)
      · cases none
      · rwa [Nat.add_sub_cancel_left]

theorem getElem?_concat_iff {α : Type} {front : List α} {i : Nat} {last x : α} :
    (front ++ [last])[i]? = some x ↔ front[i]? = some x ∨ i = front.length ∧ last = x := by
  rw [getElem?_append_iff]
  refine or_congr_right ⟨?_, ?_⟩
  · rintro ⟨_ | k, rfl, found⟩
    · exact ⟨rfl, Option.some.inj found⟩
    · cases found
  · rintro ⟨rfl, rfl⟩
    exact ⟨0, rfl, rfl⟩

-- Each entry of a list stands at one place. What is neither cut out nor behind the cut stands in front of it.
theorem getElem?_front_iff {front back : List Bytes} {gone name : Bytes} {i : Nat} (distinct : (front ++ gone :: back).Nodup) :
    name ∉ back ∧ name ≠ gone ∧ (front ++ gone :: back)[i]? = some name ↔ front[i]? = some name := by
  rw [getElem?_append_iff]
  constructor
  · rintro ⟨outside, other, here | ⟨_ | k, -, later⟩⟩
    · exact here
    · exact absurd (Option.some.inj later).symm other
    · exact absurd (List.mem_of_getElem? (List.getElem?_cons_succ ▸ later)) outside
  · intro here
    have apart := List.disjoint_of_nodup_append distinct (List.mem_of_getElem? here)
    exact ⟨fun late => apart (List.mem_cons_of_mem _ late), fun same => apart (same ▸ List.mem_cons_self), .inl here⟩

theorem update_none_iff {places : Bytes → Option Nat} {gone name : Bytes} {i : Nat} :
    Function.update places gone none name = some i ↔ name ≠ gone ∧ places name = some i := by
  by_cases same : name = gone <;> simp [same]

namespace PropertyList

inductive Edit where
  | set (p : Property)
  | erase (name : Bytes)
  deriving DecidableEq, Repr

def Edit.name : Edit → Bytes
  | .set p => p.name
  | .erase name => name

def edit (props : PropertyList) : Edit → PropertyList
  | .set p => set p props
  | .erase name => erase props name

theorem find_cons (q : Property) (rest : PropertyList) (name : Bytes) :
    find (q :: rest) name = if q.name = name then some q else find rest name := by
  rw [find, List.find?_cons]
  split <;> simp_all [find]

theorem find_set (p : Property) (props : PropertyList) (name : Bytes) :
    find (set p props) name = if p.name = name then some p else find props name := by
  induction props with
  | nil => exact find_cons p [] name
  | cons q rest ih =>
    rw [set]
    by_cases same : q.name = p.name
    · rw [if_pos same, find_cons, find_cons, same]
      split <;> rfl
    · rw [if_neg same, find_cons, find_cons, ih]
      have apart : q.name = name → ¬ p.name = name := fun here there => same (here.trans there.symm)
      exact ite_ite_comm _ _ _ _ apart

theorem erase_cons (q : Property) (rest : PropertyList) (gone : Bytes) :
    erase (q :: rest) gone = if q.name = gone then rest else q :: erase rest gone := by
  rw [erase, List.eraseP_cons]
  split <;> simp_all [erase]

theorem names_erase (props : PropertyList) (gone : Bytes) :
    (erase props gone).map Property.name = (props.map Property.name).erase gone := by
  induction props with
  | nil => rfl
  | cons q rest ih =>
    rw [erase_cons, List.map_cons, List.erase_cons]
    by_cases same : q.name = gone
    · simp [same]
    · rw [if_neg same, if_neg (by simpa using same), List.map_cons]
      exact congrArg _ ih

theorem passed_over {props : PropertyList} {name : Bytes} (absent : name ∉ props.map Property.name) :
    ∀ q ∈ props, ¬ decide (q.name = name) = true := by
  intro q member
  have other : q.name ≠ name := fun same => absent (same ▸ List.mem_map_of_mem member)
  simpa using other

theorem find_none {props : PropertyList} {name : Bytes} (absent : name ∉ props.map Property.name) :
    find props name = none :=
  List.find?_eq_none.mpr (passed_over absent)

section Parts

variable {front : PropertyList} {name : Bytes} (passed : name ∉ front.map Property.name) (rest : PropertyList)
include passed

theorem find_append : find (front ++ rest) name = find rest name := by
  rw [find, List.find?_append, ← find, find_none passed, Option.none_or]
  rfl

theorem erase_append : erase (front ++ rest) name = front ++ erase rest name :=
  List.eraseP_append_right rest (passed_over passed)

end Parts

theorem find_erase {props : PropertyList} (distinct : (props.map Property.name).Nodup) (gone name : Bytes) :
    find (erase props gone) name = if gone = name then none else find props name := by
  induction props with
  | nil => exact (ite_self none).symm
  | cons q rest ih =>
    obtain ⟨fresh, distinct⟩ := List.nodup_cons.mp distinct
    rw [erase_cons, find_cons]
    by_cases same : q.name = gone
    · rw [if_pos same, same]
      split
      · rename_i equal
        rw [← equal, ← same]
        exact find_none fresh
      · rfl
    · rw [if_neg same, find_cons, ih distinct]
      have apart : q.name = name → ¬ gone = name := fun here there => same (here.trans there.symm)
      exact ite_ite_comm _ _ _ _ apart

def Latest (edits : List Edit) (name : Bytes) (p : Property) : Prop :=
  ∃ before after, edits = before ++ .set p :: after ∧ p.name = name ∧ ∀ e ∈ after, e.name ≠ name

-- The edit at an index is the first that sets a name since the name was last erased.
structure Opens (edits : List Edit) (name : Bytes) (i : Nat) : Prop where
  sets : ∃ p, edits[i]? = some (.set p) ∧ p.name = name
  kept : ∀ j, i < j → edits[j]? ≠ some (.erase name)
  first : ∀ j p, j < i → edits[j]? = some (.set p) → p.name = name →
    ∃ k, j < k ∧ k < i ∧ edits[k]? = some (.erase name)

structure Ordered (edits : List Edit) (props : PropertyList) : Prop where
  distinct : (props.map Property.name).Nodup
  latest : ∀ name p, find props name = some p ↔ Latest edits name p
  listed : ∀ name, name ∈ props.map Property.name ↔ ∃ i, Opens edits name i
  order : (props.map Property.name).Pairwise fun a b => ∀ i j, Opens edits a i → Opens edits b j → i < j

section Histories

variable {edits : List Edit} {e : Edit} {name : Bytes}

theorem latest_concat {p : Property} :
    Latest (edits ++ [e]) name p ↔ if e.name = name then e = .set p else Latest edits name p := by
  constructor
  · rintro ⟨before, after, whole, named, later⟩
    rcases after.eq_nil_or_concat with rfl | ⟨rest, last, rfl⟩
    · obtain ⟨-, equal⟩ := List.append_inj' whole rfl
      cases equal
      rw [if_pos (show Edit.name (.set p) = name from named)]
    · rw [List.concat_eq_append] at whole later
      rw [← List.cons_append, ← List.append_assoc] at whole
      obtain ⟨rfl, equal⟩ := List.append_inj' whole rfl
      cases equal
      rw [if_neg (later e (List.mem_append_right _ List.mem_cons_self))]
      exact ⟨before, rest, rfl, named, fun x member => later x (List.mem_append_left _ member)⟩
  · split
    · rintro rfl
      rename_i named
      exact ⟨edits, [], rfl, named, List.forall_mem_nil _⟩
    · rename_i other
      rintro ⟨before, after, rfl, named, later⟩
      refine ⟨before, after ++ [e], by rw [List.append_assoc, List.cons_append], named, ?_⟩
      exact List.forall_mem_append.mpr ⟨later, List.forall_mem_singleton.mpr other⟩

theorem Opens.known {i : Nat} (opens : Opens edits name i) : i < edits.length := by
  obtain ⟨p, found, -⟩ := opens.sets
  exact (List.getElem?_eq_some_iff.mp found).1

theorem opens_of_set {j : Nat} {p : Property} (found : edits[j]? = some (.set p)) (named : p.name = name)
    (kept : ∀ k, j < k → edits[k]? ≠ some (.erase name)) : ∃ i, Opens edits name i := by
  induction j using Nat.strongRecOn generalizing p with
  | ind j ih =>
    by_cases earlier : ∃ i q, i < j ∧ edits[i]? = some (.set q) ∧ q.name = name ∧
        ∀ k, i < k → k < j → edits[k]? ≠ some (.erase name)
    · obtain ⟨i, q, less, found', named', between⟩ := earlier
      refine ih i less found' named' fun k further => ?_
      rcases Nat.lt_trichotomy k j with inner | rfl | outer
      · exact between k further inner
      · rw [found]
        exact fun equal => nomatch Option.some.inj equal
      · exact kept k outer
    · refine ⟨j, ⟨p, found, named⟩, kept, fun i q less found' named' => ?_⟩
      by_contra none
      exact earlier ⟨i, q, less, found', named', fun k further inner erased => none ⟨k, further, inner, erased⟩⟩

theorem opens_concat_old {i : Nat} (inside : i < edits.length) :
    Opens (edits ++ [e]) name i ↔ Opens edits name i ∧ e ≠ .erase name := by
  constructor
  · rintro ⟨⟨p, found, named⟩, kept, first⟩
    have old := (getElem?_concat_iff.mp found).resolve_right fun last => inside.ne last.1
    refine ⟨⟨⟨p, old, named⟩, fun j further erased => ?_, fun j q less found' named' => ?_⟩, fun erased => ?_⟩
    · exact kept j further (getElem?_concat_iff.mpr (.inl erased))
    · obtain ⟨k, further, inner, gone⟩ := first j q less (getElem?_concat_iff.mpr (.inl found')) named'
      have old := (getElem?_concat_iff.mp gone).resolve_right fun last => (inner.trans inside).ne last.1
      exact ⟨k, further, inner, old⟩
    · exact kept _ inside (getElem?_concat_iff.mpr (.inr ⟨rfl, erased⟩))
  · rintro ⟨⟨⟨p, found, named⟩, kept, first⟩, other⟩
    have here : (edits ++ [e])[i]? = some (.set p) := getElem?_concat_iff.mpr (.inl found)
    refine ⟨⟨p, here, named⟩, fun j further gone => ?_, fun j q less found' named' => ?_⟩
    · rcases getElem?_concat_iff.mp gone with old | ⟨-, last⟩
      · exact kept j further old
      · exact other last
    · have old := (getElem?_concat_iff.mp found').resolve_right fun last => (less.trans inside).ne last.1
      obtain ⟨k, further, inner, gone⟩ := first j q less old named'
      exact ⟨k, further, inner, getElem?_concat_iff.mpr (.inl gone)⟩

theorem opens_concat_last : Opens (edits ++ [e]) name edits.length ↔
    (∃ p, e = .set p ∧ p.name = name) ∧ ∀ j, ¬ Opens edits name j := by
  constructor
  · rintro ⟨⟨p, found, named⟩, -, first⟩
    have last := (getElem?_concat_iff.mp found).resolve_left fun old =>
      lt_irrefl _ (List.getElem?_eq_some_iff.mp old).1
    refine ⟨⟨p, last.2, named⟩, fun j opens => ?_⟩
    obtain ⟨q, found', named'⟩ := opens.sets
    obtain ⟨k, further, inner, gone⟩ := first j q opens.known (getElem?_concat_iff.mpr (.inl found')) named'
    exact opens.kept k further ((getElem?_concat_iff.mp gone).resolve_right fun last => inner.ne last.1)
  · rintro ⟨⟨p, rfl, named⟩, closed⟩
    have here : (edits ++ [.set p])[edits.length]? = some (.set p) := getElem?_concat_iff.mpr (.inr ⟨rfl, rfl⟩)
    refine ⟨⟨p, here, named⟩, fun j further gone => ?_, fun j q less found' named' => ?_⟩
    · rcases getElem?_concat_iff.mp gone with old | ⟨last, -⟩
      · exact lt_asymm further (List.getElem?_eq_some_iff.mp old).1
      · exact further.ne' last
    · have old := (getElem?_concat_iff.mp found').resolve_right fun last => less.ne last.1
      by_contra none
      obtain ⟨i, opens⟩ := opens_of_set old named' fun k further gone =>
        none ⟨k, further, (List.getElem?_eq_some_iff.mp gone).1, getElem?_concat_iff.mpr (.inl gone)⟩
      exact closed i opens

theorem opens_concat {i : Nat} : Opens (edits ++ [e]) name i ↔
    (Opens edits name i ∧ e ≠ .erase name) ∨
    (i = edits.length ∧ (∃ p, e = .set p ∧ p.name = name) ∧ ∀ j, ¬ Opens edits name j) := by
  constructor
  · intro opens
    have known := opens.known
    rw [List.length_append, List.length_singleton] at known
    rcases Nat.eq_or_lt_of_le (Nat.le_of_lt_succ known) with rfl | inside
    · exact .inr ⟨rfl, opens_concat_last.mp opens⟩
    · exact .inl ((opens_concat_old inside).mp opens)
  · rintro (old | ⟨rfl, last⟩)
    · exact (opens_concat_old old.1.known).mpr old
    · exact opens_concat_last.mpr last

theorem opens_erase {gone : Bytes} {i : Nat} :
    Opens (edits ++ [.erase gone]) name i ↔ Opens edits name i ∧ name ≠ gone := by
  rw [opens_concat, or_iff_left, Ne, Edit.erase.injEq, ne_comm]
  rintro ⟨-, ⟨p, set, -⟩, -⟩
  cases set

theorem opens_set {p : Property} {i : Nat} : Opens (edits ++ [.set p]) name i ↔
    Opens edits name i ∨ i = edits.length ∧ p.name = name ∧ ∀ j, ¬ Opens edits name j := by
  rw [opens_concat, and_iff_left nofun]
  simp only [Edit.set.injEq, exists_eq_left']

theorem open_set {p : Property} :
    (∃ i, Opens (edits ++ [.set p]) name i) ↔ (∃ i, Opens edits name i) ∨ p.name = name := by
  simp only [opens_set]
  constructor
  · rintro ⟨i, opens | ⟨-, same, -⟩⟩
    · exact .inl ⟨i, opens⟩
    · exact .inr same
  · intro either
    by_cases before : ∃ i, Opens edits name i
    · obtain ⟨i, opens⟩ := before
      exact ⟨i, .inl opens⟩
    · exact ⟨_, .inr ⟨rfl, either.resolve_left before, not_exists.mp before⟩⟩

theorem ordered_nil : Ordered [] [] where
  distinct := List.nodup_nil
  latest name p := by simp [find, Latest]
  listed name := ⟨nofun, fun ⟨_, opens⟩ => absurd opens.known (Nat.not_lt_zero _)⟩
  order := List.Pairwise.nil

theorem Ordered.erase {props : PropertyList} (ordered : Ordered edits props) (gone : Bytes) :
    Ordered (edits ++ [.erase gone]) (props.erase gone) where
  distinct := ordered.distinct.sublist ((erase_sublist props gone).map _)
  latest name p := by
    rw [find_erase ordered.distinct, latest_concat, ← ordered.latest]
    change _ ↔ if gone = name then _ else _
    split <;> simp
  listed name := by
    simp only [opens_erase, exists_and_right]
    rw [names_erase, ordered.distinct.mem_erase_iff, ordered.listed, and_comm]
  order := by
    rw [names_erase]
    refine (ordered.order.sublist List.erase_sublist).imp fun before i j one two => ?_
    exact before i j (opens_erase.mp one).1 (opens_erase.mp two).1

theorem Ordered.set {props : PropertyList} (ordered : Ordered edits props) (p : Property) :
    Ordered (edits ++ [.set p]) (set p props) := by
  have listed := ordered.listed
  have old : ∀ name ∈ props.map Property.name, ∀ i, Opens (edits ++ [.set p]) name i ↔ Opens edits name i := by
    intro name known i
    obtain ⟨j, opens⟩ := (listed name).mp known
    rw [opens_set, or_iff_left fun fresh => fresh.2.2 j opens]
  have latest : ∀ name q, find (PropertyList.set p props) name = some q ↔ Latest (edits ++ [.set p]) name q := by
    intro name q
    rw [find_set, latest_concat, ← ordered.latest]
    change _ ↔ if p.name = name then _ else _
    split <;> simp
  have order : (props.map Property.name).Pairwise fun a b => ∀ i j, Opens (edits ++ [.set p]) a i →
      Opens (edits ++ [.set p]) b j → i < j :=
    ordered.order.imp_of_mem fun one two before i j first second =>
      before i j ((old _ one i).mp first) ((old _ two j).mp second)
  refine ⟨nodup_set ordered.distinct, latest, fun name => ?_, ?_⟩
  · rw [open_set, ← listed, names_set]
    split
    · rename_i known
      exact ⟨.inl, fun either => either.elim id fun same => same ▸ known⟩
    · rw [List.mem_append, List.mem_singleton]
      exact or_congr_right eq_comm
  · rw [names_set]
    split
    · exact order
    · rename_i fresh
      refine List.pairwise_append.mpr ⟨order, List.pairwise_singleton .., fun a known b last i j first second => ?_⟩
      cases List.mem_singleton.mp last
      rcases opens_set.mp second with opens | ⟨rfl, -⟩
      · exact absurd ((listed _).mpr ⟨j, opens⟩) fresh
      · exact ((old a known i).mp first).known

theorem ordered_edits (edits : List Edit) : Ordered edits (edits.foldl edit []) := by
  induction edits using List.reverseRecOn with
  | nil => exact ordered_nil
  | append_singleton edits e ordered =>
    rw [List.foldl_append]
    cases e with
    | set p => exact ordered.set p
    | erase gone => exact ordered.erase gone

end Histories
end PropertyList

-- The properties in order, and beside them the place of each name. An access beyond the end has no result.
structure Slots where
  props : List Property
  places : Bytes → Option Nat

namespace Slots

open PropertyList (Edit)

def empty : Slots := ⟨[], fun _ => none⟩

def find (s : Slots) (name : Bytes) : Option (Option Property) :=
  match s.places name with
  | none => some none
  | some i => s.props[i]?.map some

def set (s : Slots) (p : Property) : Option Slots :=
  match s.places p.name with
  | some i => if i < s.props.length then some { s with props := s.props.set i p } else none
  | none => some ⟨s.props ++ [p], Function.update s.places p.name (some s.props.length)⟩

def renumber : (next : Nat) → List Property → (Bytes → Option Nat) → Bytes → Option Nat
  | _, [], places => places
  | next, p :: rest, places => renumber (next + 1) rest (Function.update places p.name (some next))

def erase (s : Slots) (name : Bytes) : Option Slots :=
  match s.places name with
  | none => some s
  | some i =>
    if i < s.props.length then
      let props := s.props.take i ++ s.props.drop (i + 1)
      some ⟨props, renumber i (props.drop i) (Function.update s.places name none)⟩
    else none

def edit (s : Slots) : Edit → Option Slots
  | .set p => s.set p
  | .erase name => s.erase name

def Indexed (s : Slots) : Prop := ∀ name i, s.places name = some i ↔ (s.props.map Property.name)[i]? = some name

section Keeping

variable {s : Slots}

theorem Indexed.distinct (indexed : s.Indexed) : (s.props.map Property.name).Nodup := by
  refine List.nodup_iff_getElem?_ne_getElem?.mpr fun i j less inside same => ?_
  have one := List.getElem?_eq_getElem (less.trans inside)
  rw [one] at same
  have first := (indexed _ i).mpr one
  rw [(indexed _ j).mpr same.symm] at first
  exact less.ne' (Option.some.inj first)

theorem Indexed.absent (indexed : s.Indexed) {name : Bytes} (none : s.places name = none) :
    name ∉ s.props.map Property.name := by
  intro member
  obtain ⟨i, found⟩ := List.mem_iff_getElem?.mp member
  rw [(indexed name i).mpr found] at none
  cases none

theorem Indexed.cut (indexed : s.Indexed) {name : Bytes} {i : Nat} (placed : s.places name = some i) :
    ∃ front p back, s.props = front ++ p :: back ∧ front.length = i ∧ p.name = name ∧
      name ∉ front.map Property.name := by
  have found := (indexed name i).mp placed
  rw [List.getElem?_map, Option.map_eq_some_iff] at found
  obtain ⟨p, found, named⟩ := found
  obtain ⟨inside, rfl⟩ := List.getElem?_eq_some_iff.mp found
  have whole : s.props = s.props.take i ++ s.props[i] :: s.props.drop (i + 1) := by
    rw [List.getElem_cons_drop, List.take_append_drop]
  have distinct := indexed.distinct
  rw [whole, List.map_append, List.map_cons, named] at distinct
  exact ⟨_, _, _, whole, List.length_take_of_le inside.le, named, fun member =>
    List.disjoint_of_nodup_append distinct member List.mem_cons_self⟩

theorem Indexed.find (indexed : s.Indexed) (name : Bytes) : s.find name = some (PropertyList.find s.props name) := by
  unfold Slots.find
  cases placed : s.places name with
  | none => rw [PropertyList.find_none (indexed.absent placed)]
  | some i =>
    obtain ⟨front, p, back, whole, rfl, named, passed⟩ := indexed.cut placed
    rw [whole, PropertyList.find_append passed, PropertyList.find_cons, if_pos named]
    simp

theorem Indexed.set (indexed : s.Indexed) (p : Property) :
    ∃ t, s.set p = some t ∧ t.props = PropertyList.set p s.props ∧ t.Indexed := by
  unfold Slots.set
  cases placed : s.places p.name with
  | none =>
    have fresh := indexed.absent placed
    refine ⟨_, rfl, (PropertyList.set_fresh fresh).symm, fun name i => ?_⟩
    dsimp only
    rw [List.map_append, List.map_singleton, getElem?_concat_iff, List.length_map, ← indexed name i]
    by_cases same : name = p.name
    · rw [same, Function.update_self, placed, Option.some.injEq]
      simp [eq_comm]
    · rw [Function.update_of_ne same, or_iff_left fun last => same last.2.symm]
  | some i =>
    obtain ⟨front, q, back, whole, rfl, named, passed⟩ := indexed.cut placed
    have inside : front.length < s.props.length := by
      rw [whole, List.length_append, List.length_cons]
      omega
    have edited : s.props.set front.length p = front ++ p :: back := by rw [whole]; simp
    refine ⟨_, if_pos inside, ?_, fun name j => ?_⟩
    · rw [whole, PropertyList.set_append passed, PropertyList.set, if_pos named, ← whole]
      exact edited
    · dsimp only
      rw [indexed name j, edited, whole, List.map_append, List.map_append, List.map_cons, List.map_cons, named]

theorem renumber_iff {rest : List Property} (distinct : (rest.map Property.name).Nodup) (next : Nat)
    (places : Bytes → Option Nat) (name : Bytes) (i : Nat) : renumber next rest places name = some i ↔
      (∃ k, i = next + k ∧ (rest.map Property.name)[k]? = some name) ∨
      name ∉ rest.map Property.name ∧ places name = some i := by
  induction rest generalizing next places with
  | nil => simp [renumber]
  | cons p rest ih =>
    obtain ⟨fresh, distinct⟩ := List.nodup_cons.mp distinct
    have first : (∃ k, i = next + k ∧ (p.name :: rest.map Property.name)[k]? = some name) ↔
        (i = next ∧ p.name = name) ∨ ∃ k, i = next + 1 + k ∧ (rest.map Property.name)[k]? = some name := by
      rw [← Nat.or_exists_add_one]
      simp [Nat.add_assoc, Nat.add_comm 1]
    rw [renumber, ih distinct, List.map_cons, first, List.mem_cons, not_or]
    by_cases same : name = p.name
    · subst same
      simp [fresh, eq_comm, or_comm]
    · rw [Function.update_of_ne same]
      simp [same, Ne.symm same]

theorem Indexed.erase (indexed : s.Indexed) (gone : Bytes) :
    ∃ t, s.erase gone = some t ∧ t.props = PropertyList.erase s.props gone ∧ t.Indexed := by
  unfold Slots.erase
  cases placed : s.places gone with
  | none =>
    have absent := indexed.absent placed
    have kept := PropertyList.erase_append absent []
    rw [List.append_nil] at kept
    exact ⟨s, rfl, (kept.trans (List.append_nil _)).symm, indexed⟩
  | some i =>
    obtain ⟨front, q, back, whole, rfl, rfl, passed⟩ := indexed.cut placed
    have inside : front.length < s.props.length := by
      rw [whole, List.length_append, List.length_cons]
      omega
    have shorter : s.props.take front.length ++ s.props.drop (front.length + 1) = front ++ back := by
      rw [whole]
      simp
    have names : s.props.map Property.name = front.map Property.name ++ q.name :: back.map Property.name := by
      rw [whole, List.map_append, List.map_cons]
    have distinct := names ▸ indexed.distinct
    refine ⟨_, if_pos inside, ?_, fun name i => ?_⟩
    · rw [whole, PropertyList.erase_append passed, PropertyList.erase_cons, if_pos rfl, ← whole]
      exact shorter
    · dsimp only
      rw [shorter, List.drop_left, renumber_iff distinct.of_append_right.of_cons, List.map_append, getElem?_append_iff,
        List.length_map, or_comm, update_none_iff, indexed name i, names, getElem?_front_iff distinct]

theorem Indexed.edit (indexed : s.Indexed) (e : Edit) :
    ∃ t, s.edit e = some t ∧ t.props = PropertyList.edit s.props e ∧ t.Indexed := by
  cases e with
  | set p => exact indexed.set p
  | erase gone => exact indexed.erase gone

theorem Indexed.edits (indexed : s.Indexed) (edits : List Edit) :
    ∃ t, edits.foldlM Slots.edit s = some t ∧ t.props = edits.foldl PropertyList.edit s.props ∧ t.Indexed := by
  induction edits generalizing s with
  | nil => exact ⟨s, rfl, rfl, indexed⟩
  | cons e edits ih =>
    obtain ⟨t, one, same, indexed⟩ := indexed.edit e
    obtain ⟨u, more, whole, indexed⟩ := ih indexed
    refine ⟨u, ?_, ?_, indexed⟩
    · rw [List.foldlM_cons, one]
      exact more
    · rw [whole, same, List.foldl_cons]

theorem indexed_empty : empty.Indexed := fun _ _ => ⟨nofun, nofun⟩

end Keeping
end Slots

namespace Merge

open PropertyList (Edit)

def edit (id : NodeId) (m : Merge) : Edit → Merge
  | .set p => m.setProperty (some id) p
  | .erase name => m.eraseProperty id name

theorem edit_properties {m : Merge} {id : Nat} (known : id < m.store.nodes.size) (e : Edit) :
    (m.edit id e).store.nodes.size = m.store.nodes.size ∧
    ((m.edit id e).store.node id).properties = PropertyList.edit (m.store.node id).properties e := by
  cases e with
  | set p =>
    refine ⟨Store.size_modify .., ?_⟩
    exact congrArg Node.properties (Store.node_modify_self m.store id _ known)
  | erase gone =>
    refine ⟨Store.size_modify .., ?_⟩
    exact congrArg Node.properties (Store.node_modify_self m.store id _ known)

theorem edits_properties {m : Merge} {id : Nat} (known : id < m.store.nodes.size) (edits : List Edit) :
    ((edits.foldl (edit id) m).store.node id).properties = edits.foldl PropertyList.edit (m.store.node id).properties := by
  induction edits generalizing m with
  | nil => rfl
  | cons e edits ih =>
    obtain ⟨size, one⟩ := edit_properties known e
    rw [List.foldl_cons, List.foldl_cons, ih (size ▸ known), one]

-- A node begins with no property. Whatever is done to its properties then, they are an ordered map of what was done.
theorem edited_properties (m : Merge) {id : Nat} (known : id < m.store.nodes.size)
    (bare : (m.store.node id).properties = []) (edits : List Edit) :
    PropertyList.Ordered edits ((edits.foldl (edit id) m).store.node id).properties ∧
    ∃ s, edits.foldlM Slots.edit Slots.empty = some s ∧
      s.props = ((edits.foldl (edit id) m).store.node id).properties ∧ s.Indexed ∧
      ∀ name, s.find name = some (((edits.foldl (edit id) m).store.node id).property? name) := by
  have listed := edits_properties known edits
  rw [bare] at listed
  obtain ⟨s, run, same, indexed⟩ := Slots.indexed_empty.edits edits
  refine ⟨listed ▸ PropertyList.ordered_edits edits, s, run, same.trans listed.symm, indexed, fun name => ?_⟩
  rw [indexed.find, Node.property?, listed, same]
  rfl

def plain (name : String) (fragment : FragmentId) : Property := ⟨⟨.zero, .zero, [], utf8 name, []⟩, fragment⟩

def history : List Edit :=
  [.set (plain "reg" 0), .set (plain "status" 0), .set (plain "label" 1), .erase (utf8 "reg"), .set (plain "status" 2),
    .set (plain "reg" 3), .erase (utf8 "clocks")]

-- A name that was overridden keeps its place, and one that was erased comes back at the end.
theorem history_properties : Store.rootId < empty.store.nodes.size ∧ (empty.store.node Store.rootId).properties = [] ∧
    ((history.foldl (edit Store.rootId) empty).store.node Store.rootId).properties =
      [plain "status" 2, plain "label" 1, plain "reg" 3] ∧
    PropertyList.Ordered history [plain "status" 2, plain "label" 1, plain "reg" 3] ∧
    ∃ s, history.foldlM Slots.edit Slots.empty = some s ∧ s.Indexed ∧ s.find (utf8 "reg") = some (some (plain "reg" 3)) ∧
      s.find (utf8 "clocks") = some none := by
  have known : Store.rootId < empty.store.nodes.size := by decide
  have listed : ((history.foldl (edit Store.rootId) empty).store.node Store.rootId).properties =
      [plain "status" 2, plain "label" 1, plain "reg" 3] := by decide
  obtain ⟨ordered, s, run, -, indexed, finds⟩ := edited_properties empty known rfl history
  rw [listed] at ordered
  simp only [Node.property?, listed] at finds
  exact ⟨known, rfl, listed, ordered, s, run, indexed, (finds _).trans (by decide), (finds _).trans (by decide)⟩

end Merge
end DeviceTree
