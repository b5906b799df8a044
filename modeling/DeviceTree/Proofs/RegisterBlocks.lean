import DeviceTree.Proofs.Merging
import DeviceTree.Proofs.Registers

namespace DeviceTree

-- An end that is not a word is the last address.
theorem RegBlock.toNat_stopOf (address size : UInt64) :
    (stopOf address size).toNat = min (address.toNat + size.toNat) (2 ^ 64 - 1) := by
  have low := address.toNat_lt
  have low' := size.toNat_lt
  unfold stopOf
  split
  · rename_i wraps
    rw [UInt64.lt_iff_toNat_lt, UInt64.toNat_add] at wraps
    rw [show (0xffffffffffffffff : UInt64).toNat = 2 ^ 64 - 1 from rfl]
    omega
  · rename_i plain
    rw [UInt64.lt_iff_toNat_lt, UInt64.toNat_add] at plain
    rw [UInt64.toNat_add]
    omega

section Sorting

variable {α : Type} (address : α → UInt64) (xs : List α)

theorem le_of_le (a b c : α) (one : decide (address a ≤ address b) = true)
    (two : decide (address b ≤ address c) = true) : decide (address a ≤ address c) = true :=
  decide_eq_true (UInt64.le_trans (of_decide_eq_true one) (of_decide_eq_true two))

theorem le_or_le (a b : α) : (decide (address a ≤ address b) || decide (address b ≤ address a)) = true := by
  rw [Bool.or_eq_true, decide_eq_true_eq, decide_eq_true_eq]
  exact UInt64.le_total _ _

theorem mergeSort_ordered : (xs.mergeSort fun a b => address a ≤ address b).Pairwise fun a b => address a ≤ address b := by
  have sorted : (xs.mergeSort fun a b => address a ≤ address b).Pairwise fun a b => decide (address a ≤ address b) = true :=
    List.pairwise_mergeSort (le_of_le address) (le_or_le address) xs
  exact sorted.imp of_decide_eq_true

theorem mergeSort_stable (k : UInt64) :
    (xs.mergeSort fun a b => address a ≤ address b).filter (fun a => address a = k) = xs.filter fun a => address a = k := by
  have tied : (xs.filter fun a => address a = k).Pairwise fun a b => decide (address a ≤ address b) = true := by
    refine List.pairwise_of_forall_mem_list fun a one b two => decide_eq_true ?_
    rw [of_decide_eq_true (List.mem_filter.mp one).2, of_decide_eq_true (List.mem_filter.mp two).2]
    exact UInt64.le_refl k
  have kept : (xs.filter fun a => address a = k).Sublist (xs.mergeSort fun a b => address a ≤ address b) :=
    List.sublist_mergeSort (le_of_le address) (le_or_le address) tied List.filter_sublist
  have sub := kept.filter fun a => address a = k
  rw [List.filter_filter] at sub
  simp only [Bool.and_self] at sub
  exact (sub.eq_of_length ((List.mergeSort_perm xs _).symm.filter _).length_eq).symm

end Sorting

namespace Registers

def digit (c : Int64) : Nat := (c.toBitVec.setWidth 32).toNat

def numeral (cells : List Int64) : Nat := Nat.ofDigits (2 ^ 32) (cells.reverse.map digit)

theorem digit_lt (c : Int64) : digit c < 2 ^ 32 := (c.toBitVec.setWidth 32).isLt

theorem toNat_low (c : Int64) : (c.toUInt64 &&& 0xffffffff).toNat = digit c := by
  rw [UInt64.toNat_and, show (0xffffffff : UInt64).toNat = 2 ^ 32 - 1 from rfl, Nat.and_two_pow_sub_one_eq_mod, digit,
    BitVec.toNat_setWidth]
  rfl

theorem numeral_append (cells : List Int64) (c : Int64) : numeral (cells ++ [c]) = digit c + 2 ^ 32 * numeral cells := by
  simp [numeral, Nat.ofDigits_cons]

theorem toNat_shift_or {v w : UInt64} (low : w.toNat < 2 ^ 32) :
    (v <<< 32 ||| w).toNat = (w.toNat + 2 ^ 32 * v.toNat) % 2 ^ 64 := by
  have shifted : (v <<< 32).toNat = (v.toNat % 2 ^ 32) <<< 32 := by
    rw [UInt64.toNat_shiftLeft, show (32 : UInt64).toNat % 64 = 32 from rfl, Nat.shiftLeft_eq, Nat.shiftLeft_eq]
    omega
  rw [UInt64.toNat_or, shifted, ← Nat.shiftLeft_add_eq_or_of_lt low, Nat.shiftLeft_eq]
  omega

theorem toNat_joinCells (cells : List Int64) : (joinCells cells).toNat = numeral cells % 2 ^ 64 := by
  induction cells using List.reverseRecOn with
  | nil => rfl
  | append_singleton cells c ih =>
    have step : joinCells (cells ++ [c]) = joinCells cells <<< 32 ||| (c.toUInt64 &&& 0xffffffff) := by
      simp [joinCells]
    rw [step, toNat_shift_or (toNat_low c ▸ digit_lt c), toNat_low, ih, numeral_append]
    omega

theorem joinCells_eq (cells : List Int64) : joinCells cells = .ofNat (numeral cells) := by
  rw [← UInt64.toNat_inj, toNat_joinCells, UInt64.toNat_ofNat']

def blockOf (array : CellArray) (address : Nat) (group : List Int64) : RegBlock :=
  ⟨.ofNat (numeral (group.take address)), .ofNat (numeral (group.drop address)), array⟩

theorem slice_eq_ok {cells part : List Int64} {first last : Int64} (there : slice cells first last = .ok part) :
    ∃ i j : Nat, first.toInt = i ∧ last.toInt = j ∧ i ≤ j ∧ j ≤ cells.length ∧ part = (cells.drop i).take (j - i) := by
  obtain ⟨low, order, high⟩ := slice_returns.mp ⟨part, there⟩
  obtain ⟨i, start⟩ := Int.eq_ofNat_of_zero_le low
  obtain ⟨j, stop⟩ := Int.eq_ofNat_of_zero_le (low.trans order)
  refine ⟨i, j, start, stop, by omega, by omega, ?_⟩
  have width : (last - first).toInt = ((j - i : Nat) : Int) := by
    have bound := last.toInt_lt
    rw [Int64.toInt_sub, start, stop, Int.bmod_def]
    split <;> omega
  unfold slice at there
  split at there
  · cases there
  · split at there
    · cases there
    · cases there
      rw [Int64.toNatClampNeg, Int64.toNatClampNeg, start, width]
      rfl

-- A sum that is not negative has not wrapped.
theorem toInt_forward {first width : Int64} {i w j : Nat} (start : first.toInt = i) (wide : width.toInt = w)
    (stop : (first + width).toInt = j) : j = i + w := by
  have sum := toInt_stride (show 0 ≤ first.toInt by omega) (show 0 ≤ width.toInt by omega)
  have bound := first.toInt_lt
  have bound' := width.toInt_lt
  split at sum <;> omega

structure Grouped (address size : Nat) (a : CellArray) (groups : List (List Int64)) : Prop where
  cells : a.values? = some groups.flatten
  width : ∀ g ∈ groups, g.length = address + size

section Blocks

variable {address size : Int64} {addressCells sizeCells : Nat} (wide : address.toInt = addressCells)
  (wide' : size.toInt = sizeCells) (moves : addressCells + sizeCells ≠ 0)
include wide wide' moves

-- That both slices are there says that the group ends inside the list, so no index has wrapped.
theorem blocksFrom_groups (array : CellArray) {cells : List Int64} (fuel : Nat) {index : Int64} {i : Nat}
    (begins : index.toInt = i) (inside : i ≤ cells.length) (enough : cells.length ≤ i + fuel) {blocks : List RegBlock}
    (read : blocksFrom array cells address (address + size) fuel index = .ok blocks) :
    ∃ groups : List (List Int64), groups.flatten = cells.drop i ∧
      (∀ g ∈ groups, g.length = addressCells + sizeCells) ∧ blocks = groups.map (blockOf array addressCells) := by
  induction fuel generalizing index i blocks with
  | zero =>
    cases read
    exact ⟨[], (List.drop_eq_nil_of_le enough).symm, List.forall_mem_nil _, rfl⟩
  | succ fuel ih =>
    unfold blocksFrom at read
    split at read
    · obtain ⟨front, one, read⟩ := Except.bind_eq_ok.mp read
      obtain ⟨back, two, read⟩ := Except.bind_eq_ok.mp read
      obtain ⟨more, later, read⟩ := Except.bind_eq_ok.mp read
      cases read
      obtain ⟨i', middle, start, between, -, -, rfl⟩ := slice_eq_ok one
      obtain ⟨middle', next, between', stop, -, fits, rfl⟩ := slice_eq_ok two
      cases (show i' = i by omega)
      cases (show middle' = middle by omega)
      rw [← Int64.add_assoc] at stop
      cases toInt_forward begins wide between
      cases toInt_forward between wide' stop
      rw [← Int64.add_assoc] at later
      obtain ⟨groups, rest, widths, rfl⟩ := ih stop fits (by omega) later
      refine ⟨(cells.drop i).take (addressCells + sizeCells) :: groups, ?_, ?_, ?_⟩
      · rw [List.flatten_cons, rest, Nat.add_assoc, ← List.drop_drop]
        exact List.take_append_drop _ _
      · refine List.forall_mem_cons.mpr ⟨?_, widths⟩
        rw [List.length_take, List.length_drop]
        omega
      · rw [List.map_cons, blockOf, List.take_take, List.drop_take, List.drop_drop, ← joinCells_eq, ← joinCells_eq]
        simp
    · rename_i done
      cases read
      exact ⟨[], (List.drop_eq_nil_of_le (by omega)).symm, List.forall_mem_nil _, rfl⟩

theorem readValue_groups {v : Value} {blocks : List RegBlock} (read : readValue address size v = .ok (some blocks)) :
    ∃ a groups, v = .array a ∧ Grouped addressCells sizeCells a groups ∧ blocks = groups.map (blockOf a addressCells) := by
  cases v with
  | array a =>
    simp only [readValue] at read
    split at read
    · rename_i cells known
      split at read
      · cases read
      · obtain ⟨found, groups, here⟩ := Except.map_eq_ok.mp read
        cases here
        have begins : (0 : Int64).toInt = (0 : Nat) := Int64.toInt_zero
        obtain ⟨groups, all, widths, equal⟩ :=
          blocksFrom_groups wide wide' moves a cells.length begins (Nat.zero_le _) (Nat.le_add_left _ _) groups
        rw [List.drop_zero] at all
        exact ⟨a, groups, rfl, ⟨all ▸ known, widths⟩, equal⟩
    · cases read
  | _ => cases read

theorem readValues_groups {vs : List Value} {blocks : List RegBlock} (read : readValues address size vs = .ok (some blocks)) :
    ∃ readings : List (CellArray × List (List Int64)), vs = readings.map (fun r => .array r.1) ∧
      (∀ r ∈ readings, Grouped addressCells sizeCells r.1 r.2) ∧
      blocks = readings.flatMap fun r => r.2.map (blockOf r.1 addressCells) := by
  induction vs generalizing blocks with
  | nil =>
    cases read
    exact ⟨[], rfl, List.forall_mem_nil _, rfl⟩
  | cons v rest ih =>
    rw [readValues] at read
    obtain ⟨first, here, read⟩ := Except.bind_eq_ok.mp read
    cases first with
    | none => cases read
    | some found =>
      obtain ⟨later?, later, read⟩ := Except.bind_eq_ok.mp read
      obtain ⟨more, rfl, rfl⟩ := Option.map_eq_some_iff.mp (Except.ok.inj read)
      obtain ⟨a, groups, rfl, grouped, rfl⟩ := readValue_groups wide wide' moves here
      obtain ⟨readings, rfl, each, rfl⟩ := ih later
      exact ⟨(a, groups) :: readings, rfl, List.forall_mem_cons.mpr ⟨grouped, each⟩, rfl⟩

end Blocks

end Registers

theorem Store.Shaped.parent_lt {s : Store} (shaped : s.Shaped) {id parent : Nat}
    (up : (s.node id).parent = some parent) : parent < id ∧ id < s.nodes.size := by
  have known : id < s.nodes.size := by
    by_contra beyond
    rw [s.node_beyond id (Nat.not_lt.mp beyond)] at up
    cases up
  have proper : 0 < id := by
    refine Nat.pos_of_ne_zero fun root => ?_
    cases root
    cases up.symm.trans shaped.orphan
  obtain ⟨p, smaller, same⟩ := shaped.parent id proper known
  cases up.symm.trans same
  exact ⟨smaller, known⟩

namespace Tree
open Registers (count? readValues Grouped blockOf)

-- The width that comes down to the children of a node: what the node declares as one cell, or else what comes down to
-- the node itself. Where no node declares one there is a default.
inductive Inherits (t : Tree) (name : Bytes) (default : Nat) : NodeId → Nat → Prop where
  | declared {id : NodeId} {p : Property} {a : CellArray} {v : Int64} {width : Nat}
      (declares : (t.node id).property? name = some p) (single : p.values = [.array a]) (cell : a.values? = some [v])
      (value : v.toInt = width) : Inherits t name default id width
  | above {id parent : NodeId} {width : Nat} (silent : (t.node id).property? name = none)
      (up : (t.node id).parent = some parent) (higher : Inherits t name default parent width) :
      Inherits t name default id width
  | default {id : NodeId} (silent : (t.node id).property? name = none) (top : (t.node id).parent = none) :
      Inherits t name default id default

theorem count_declared {t : Tree} {name : Bytes} {default : Nat} {id : NodeId} {v : Int64} {width : Nat}
    (counted : count? (t.node id) name = some v) (value : v.toInt = width) : t.Inherits name default id width := by
  unfold count? at counted
  split at counted
  · rename_i a only
    split at counted
    · rename_i w cell
      split at counted
      · cases counted
      · cases counted
        obtain ⟨p, declares, single⟩ := Option.map_eq_some_iff.mp only
        exact .declared declares single cell value
    · cases counted
  · cases counted

theorem upwards_inherits {t : Tree} (shaped : t.store.Shaped) {name : Bytes} {default : Int64} (fuel : Nat) {id : Nat}
    (enough : id < fuel) {v : Int64} {width standard : Nat}
    (found : (match (t.store.upwards fuel id).find? fun n => ((t.node n).property? name).isSome with
      | some n => count? (t.node n) name
      | none => some default) = some v)
    (value : v.toInt = width) (usual : default.toInt = standard) : t.Inherits name standard id width := by
  induction fuel generalizing id with
  | zero => omega
  | succ fuel ih =>
    rw [Store.upwards] at found
    cases declares : (t.node id).property? name with
    | some p =>
      simp only [List.find?_cons, declares, Option.isSome_some] at found
      exact count_declared found value
    | none =>
      simp only [List.find?_cons, declares, Option.isSome_none] at found
      cases up : (t.store.node id).parent with
      | none =>
        simp only [up, List.find?_nil, Option.some.injEq] at found
        subst found
        cases (show width = standard by omega)
        exact .default declares up
      | some parent =>
        have smaller := (shaped.parent_lt up).1
        simp only [up] at found
        exact .above declares up (ih (by omega) found)

theorem inheritedWidth_inherits {t : Tree} (shaped : t.store.Shaped) {name : Bytes} {default : Int64} {id : Nat}
    (known : id < t.store.nodes.size) {v : Int64} {width standard : Nat}
    (found : t.inheritedWidth id name default = some v) (value : v.toInt = width) (usual : default.toInt = standard) :
    t.Inherits name standard id width :=
  upwards_inherits shaped _ known found value usual

theorem cellWidths_inherits {t : Tree} (shaped : t.store.Shaped) {id : Nat} (known : id < t.store.nodes.size)
    {address size : Int64} (widths : t.cellWidths id = some (address, size)) :
    ∃ addressCells sizeCells : Nat, address.toInt = addressCells ∧ size.toInt = sizeCells ∧
      t.Inherits (utf8 "#address-cells") 2 id addressCells ∧ t.Inherits (utf8 "#size-cells") 1 id sizeCells := by
  obtain ⟨low, low'⟩ := cellWidths_nonneg widths
  obtain ⟨addressCells, wide⟩ := Int.eq_ofNat_of_zero_le low
  obtain ⟨sizeCells, wide'⟩ := Int.eq_ofNat_of_zero_le low'
  unfold cellWidths at widths
  split at widths
  · rename_i one two
    cases widths
    exact ⟨addressCells, sizeCells, wide, wide', inheritedWidth_inherits shaped known one wide (by decide),
      inheritedWidth_inherits shaped known two wide' (by decide)⟩
  · cases widths

-- Registers as they are read from a property of a child: the widths come down to the child, every value is an array, and
-- the groups of one array after another give the blocks.
structure ReadAs (t : Tree) (parent : NodeId) (p : Property) (addressCells sizeCells : Nat)
    (arrays : List (CellArray × List (List Int64))) (r : Registers) : Prop where
  address : t.Inherits (utf8 "#address-cells") 2 parent addressCells
  size : t.Inherits (utf8 "#size-cells") 1 parent sizeCells
  widths : r.addressCells.toInt = addressCells ∧ r.sizeCells.toInt = sizeCells
  values : p.values = arrays.map fun a => .array a.1
  grouped : ∀ a ∈ arrays, Grouped addressCells sizeCells a.1 a.2
  blocks : r.blocks = arrays.flatMap fun a => a.2.map (blockOf a.1 addressCells)

theorem registers_readAs {t : Tree} (shaped : t.store.Shaped) {id parent : Nat} {p : Property}
    (up : (t.node id).parent = some parent) (listed : (t.node id).property? (utf8 "reg") = some p) {r : Registers}
    (back : t.registers id = .ok r) (known : r.known = true) :
    ∃ addressCells sizeCells arrays, t.ReadAs parent p addressCells sizeCells arrays r := by
  obtain ⟨smaller, inside⟩ := shaped.parent_lt up
  cases widths : t.cellWidths parent with
  | none =>
    simp only [registers, up, widths] at back
    cases back
    cases known
  | some pair =>
    obtain ⟨address, size⟩ := pair
    obtain ⟨addressCells, sizeCells, wide, wide', one, two⟩ := cellWidths_inherits shaped (by omega) widths
    simp only [registers, up, widths, listed] at back
    split at back
    · cases back
      cases known
    · rename_i moves
      have proper : addressCells + sizeCells ≠ 0 := by
        rw [Registers.stride_eq_zero (by omega) (by omega), wide, wide'] at moves
        omega
      obtain ⟨found, read, rfl⟩ := Except.map_eq_ok.mp back
      cases found with
      | none => cases known
      | some blocks =>
        obtain ⟨arrays, values, grouped, equal⟩ := Registers.readValues_groups wide wide' proper read
        exact ⟨addressCells, sizeCells, arrays, one, two, ⟨wide, wide'⟩, values, grouped, equal⟩

theorem merge_registers_readAs (name : Bytes) (roots : List Bytes) (files : List File) (bindings : Option Catalog)
    {id parent : NodeId} {p : Property} (up : ((merge name roots files bindings).node id).parent = some parent)
    (listed : ((merge name roots files bindings).node id).property? (utf8 "reg") = some p) {r : Registers}
    (back : (merge name roots files bindings).registers id = .ok r) (known : r.known = true) :
    ∃ addressCells sizeCells arrays,
      (merge name roots files bindings).ReadAs parent p addressCells sizeCells arrays r :=
  registers_readAs (Merge.roots_valid files roots).shaped up listed back known

-- The address width is the root's and the size width the bus's. Three address cells are more than 64 bits, and the
-- cell of a negative number gives its low 32 bits.
def busFile : File :=
  let child := "n \x7b reg = <7 1 (0 - 1) 0 16>, <0 0 5 1 0>; \x7d;"
  let text := "/ \x7b #address-cells = <3>; b \x7b #size-cells = <2>; " ++ child ++ " \x7d; \x7d;"
  .ofText (.ofTable []) [] (utf8 "/a.dts") (utf8 text)

def bus : Tree := merge [] [utf8 "/a.dts"] [busFile] none

theorem bus_read : (bus.node 2).parent = some 1 ∧ ((bus.node 2).property? (utf8 "reg")).isSome = true ∧
    ((bus.registers 2).map fun r => (r.known, r.addressCells.toInt.toNat, r.sizeCells.toInt.toNat,
      r.blocks.map fun b => (b.address.toNat, b.size.toNat))) =
      .ok (true, 3, 2, [(0x1ffffffff, 16), (5, 0x100000000)]) := by
  decide +kernel

theorem bus_readAs : ∃ p arrays r, (bus.node 2).parent = some 1 ∧ (bus.node 2).property? (utf8 "reg") = some p ∧
    bus.registers 2 = .ok r ∧ r.known = true ∧ bus.ReadAs 1 p 3 2 arrays r := by
  obtain ⟨up, listed, all⟩ := bus_read
  obtain ⟨p, listed⟩ := Option.isSome_iff_exists.mp listed
  obtain ⟨r, back, parts⟩ := Except.map_eq_ok.mp all
  obtain ⟨known, address, size, -⟩ : r.known = true ∧ r.addressCells.toInt.toNat = 3 ∧ r.sizeCells.toInt.toNat = 2 ∧
      r.blocks.map (fun b => (b.address.toNat, b.size.toNat)) = [(0x1ffffffff, 16), (5, 0x100000000)] := by
    simpa only [Prod.mk.injEq] using parts
  obtain ⟨addressCells, sizeCells, arrays, read⟩ : ∃ addressCells sizeCells arrays,
      bus.ReadAs 1 p addressCells sizeCells arrays r :=
    merge_registers_readAs [] [utf8 "/a.dts"] [busFile] none up listed back known
  rw [read.widths.1, Int.toNat_natCast] at address
  rw [read.widths.2, Int.toNat_natCast] at size
  subst address size
  exact ⟨p, arrays, r, up, listed, back, known, read⟩

end Tree
end DeviceTree
