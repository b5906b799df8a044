import DeviceTree.Tree.Registers
import Mathlib

namespace Except

variable {ε α β : Type} {x : Except ε α} {b : β}

theorem bind_eq_ok {f : α → Except ε β} : x >>= f = .ok b ↔ ∃ a, x = .ok a ∧ f a = .ok b := by
  cases x <;> simp [bind, Except.bind]

theorem map_eq_ok {f : α → β} : x.map f = .ok b ↔ ∃ a, x = .ok a ∧ f a = b := by
  cases x <;> simp [Except.map]

theorem map_stops {f : α → β} : (∃ e, x.map f = .error e) ↔ ∃ e, x = .error e := by
  cases x <;> simp [Except.map]

theorem mapM_stops {f : α → Except ε β} {xs : List α} :
    (∃ e, xs.mapM f = .error e) ↔ ∃ x ∈ xs, ∃ e, f x = .error e := by
  induction xs with
  | nil => simp [pure, Except.pure]
  | cons x rest ih =>
    rw [List.mapM_cons, List.exists_mem_cons_iff, ← ih]
    cases f x with
    | error e => simp [bind, Except.bind]
    | ok y => cases rest.mapM f <;> simp [bind, Except.bind, pure, Except.pure]

theorem mapM_eq_ok {f : α → Except ε β} {xs : List α} {ys : List β} :
    xs.mapM f = .ok ys ↔ xs.map f = ys.map .ok := by
  induction xs generalizing ys with
  | nil => simp [pure, Except.pure, eq_comm]
  | cons x rest ih =>
    rw [List.mapM_cons, bind_eq_ok, List.map_cons]
    constructor
    · rintro ⟨y, first, later⟩
      obtain ⟨more, each, whole⟩ := bind_eq_ok.mp later
      cases whole
      rw [first, ih.mp each, List.map_cons]
    · intro each
      obtain ⟨y, more, rfl, first, later⟩ := List.map_eq_cons_iff.mp each.symm
      exact ⟨y, first.symm, bind_eq_ok.mpr ⟨more, ih.mpr later.symm, rfl⟩⟩

end Except

namespace DeviceTree
namespace Registers

section Stride

variable {address size : Int64} (low : 0 ≤ address.toInt) (low' : 0 ≤ size.toInt)
include low low'

theorem toInt_stride : (address + size).toInt =
    if address.toInt + size.toInt < 2 ^ 63 then address.toInt + size.toInt else address.toInt + size.toInt - 2 ^ 64 := by
  have high := address.toInt_lt
  have high' := size.toInt_lt
  rw [Int64.toInt_add, Int.bmod_def]
  split <;> split <;> omega

theorem stride_eq_zero : address + size = 0 ↔ address.toInt + size.toInt = 0 := by
  have high := address.toInt_lt
  have high' := size.toInt_lt
  rw [← Int64.toInt_inj, toInt_stride low low', Int64.toInt_zero]
  split <;> omega

theorem stride_wrapped (wraps : 2 ^ 63 ≤ address.toInt + size.toInt) :
    (address + size).toInt = -(2 ^ 64 - (address.toInt + size.toInt)) ∧ (address + size).toInt < 0 := by
  have high := address.toInt_lt
  have high' := size.toInt_lt
  have stride := toInt_stride low low'
  rw [if_neg (by omega)] at stride
  omega

end Stride

theorem slice_returns {cells : List Int64} {first last : Int64} :
    (∃ found, slice cells first last = .ok found) ↔
      0 ≤ first.toInt ∧ first.toInt ≤ last.toInt ∧ last.toInt ≤ cells.length := by
  have inside := Int64.lt_iff_toInt_lt (x := last) (y := 0)
  have first_low := Int64.lt_iff_toInt_lt (x := first) (y := 0)
  have ordered := Int64.lt_iff_toInt_lt (x := last) (y := first)
  rw [Int64.toInt_zero] at inside first_low
  simp only [slice, Bool.or_eq_true, decide_eq_true_eq, gt_iff_lt, inside, first_low, ordered]
  split
  · simp only [reduceCtorEq, exists_false, false_iff]
    omega
  · split
    · simp only [reduceCtorEq, exists_false, false_iff]
      omega
    · simp only [Except.ok.injEq, exists_eq', true_iff]
      omega

section Blocks

variable (array : CellArray) {cells : List Int64} {address size : Int64}
  (low : 0 ≤ address.toInt) (low' : 0 ≤ size.toInt)
include low low'

-- At every index a whole number of groups is left, so the group that begins there is in the list.
theorem blocksFrom_returns (narrow : address.toInt + size.toInt < 2 ^ 63) (short : cells.length < 2 ^ 63) (fuel : Nat)
    {index : Int64} (positive : 0 ≤ index.toInt) (whole : address.toInt + size.toInt ∣ cells.length - index.toInt) :
    ∃ blocks, blocksFrom array cells address (address + size) fuel index = .ok blocks := by
  have stride := toInt_stride low low'
  rw [if_pos narrow] at stride
  induction fuel generalizing index with
  | zero => exact ⟨[], rfl⟩
  | succ fuel ih =>
    unfold blocksFrom
    split
    · rename_i more
      have fits : address.toInt + size.toInt ≤ cells.length - index.toInt := Int.le_of_dvd (by omega) whole
      have middle : (index + address).toInt = index.toInt + address.toInt := by
        rw [toInt_stride positive low, if_pos (by omega)]
      have next : (index + (address + size)).toInt = index.toInt + (address.toInt + size.toInt) := by
        rw [toInt_stride positive (by omega), stride, if_pos (by omega)]
      have first : ∃ found, slice cells index (index + address) = .ok found := slice_returns.mpr (by omega)
      have second : ∃ found, slice cells (index + address) (index + (address + size)) = .ok found :=
        slice_returns.mpr (by omega)
      obtain ⟨front, equal⟩ := first
      obtain ⟨back, equal'⟩ := second
      have left : address.toInt + size.toInt ∣ cells.length - (index + (address + size)).toInt := by
        rw [next, show (cells.length : Int) - (index.toInt + (address.toInt + size.toInt)) =
          cells.length - index.toInt - (address.toInt + size.toInt) by omega]
        exact Int.dvd_sub whole (Int.dvd_refl _)
      obtain ⟨rest, later⟩ := ih (by omega) left
      exact ⟨⟨joinCells front, joinCells back, array⟩ :: rest, by rw [equal, equal', later]; rfl⟩
    · exact ⟨[], rfl⟩

-- The second half of the first group would end before it begins.
theorem blocksFrom_wrapped (wraps : 2 ^ 63 ≤ address.toInt + size.toInt) (nonempty : cells ≠ []) :
    ∃ p, blocksFrom array cells address (address + size) cells.length 0 = .error p := by
  have negative := (stride_wrapped low low' wraps).2
  have outside : ∀ found, slice cells address (address + size) ≠ .ok found := by
    intro found back
    have inside := slice_returns.mp ⟨found, back⟩
    omega
  obtain ⟨fuel, length⟩ := Nat.exists_eq_succ_of_ne_zero (List.length_pos_iff.mpr nonempty).ne'
  have begins : (0 : Int64).toInt < cells.length := by
    rw [Int64.toInt_zero]
    omega
  rw [length]
  simp only [blocksFrom, begins, if_true, Int64.zero_add]
  cases slice cells 0 address with
  | error p => exact ⟨p, rfl⟩
  | ok front =>
    cases back : slice cells address (address + size) with
    | error p => exact ⟨p, rfl⟩
    | ok found => exact absurd back (outside found)

end Blocks

def Overruns (address size : Int64) (a : CellArray) : Prop :=
  ∃ cells, a.values? = some cells ∧ cells ≠ [] ∧ 2 ^ 64 - (address.toInt + size.toInt) ∣ (cells.length : Int)

theorem overruns_cons {address size : Int64} {v : Value} {rest : List Value} :
    (∃ front a more, v :: rest = front ++ Value.array a :: more ∧
        (∀ v ∈ front, ∃ b, v = .array b ∧ b.cells = []) ∧ Overruns address size a) ↔
      (∃ a, v = .array a ∧ Overruns address size a) ∨ (∃ a, v = .array a ∧ a.cells = []) ∧ ∃ front a more,
        rest = front ++ Value.array a :: more ∧ (∀ v ∈ front, ∃ b, v = .array b ∧ b.cells = []) ∧
          Overruns address size a := by
  constructor
  · rintro ⟨front, a, more, equal, empty, leaves⟩
    cases front with
    | nil =>
      cases equal
      exact .inl ⟨a, rfl, leaves⟩
    | cons w front =>
      cases equal
      exact .inr ⟨empty v List.mem_cons_self, front, a, more, rfl,
        fun w member => empty w (List.mem_cons_of_mem v member), leaves⟩
  · rintro (⟨a, rfl, leaves⟩ | ⟨here, front, a, more, rfl, empty, leaves⟩)
    · exact ⟨[], a, rest, rfl, List.forall_mem_nil _, leaves⟩
    · exact ⟨v :: front, a, more, rfl, List.forall_mem_cons.mpr ⟨here, empty⟩, leaves⟩

theorem length_values {a : CellArray} {values : List Int64} (known : a.values? = some values) :
    values.length = a.cells.length := by
  have each : ∀ (cells : List Cell) (values : List Int64), cells.mapM Cell.value? = some values →
      values.length = cells.length := by
    intro cells
    induction cells with
    | nil =>
      intro values read
      cases read
      rfl
    | cons c rest ih =>
      intro values read
      rw [List.mapM_cons] at read
      obtain ⟨v, -, read⟩ := Option.bind_eq_some_iff.mp read
      obtain ⟨more, later, read⟩ := Option.bind_eq_some_iff.mp read
      cases read
      rw [List.length_cons, List.length_cons, ih more later]
  exact each a.cells values known

theorem mod_eq_zero {cells : List Int64} {stride : Int64} (short : cells.length < 2 ^ 63) :
    (Int64.ofNat cells.length % stride != 0) = false ↔ stride.toInt ∣ (cells.length : Int) := by
  rw [bne_eq_false_iff_eq, ← Int64.toInt_inj, Int64.toInt_mod, Int64.toInt_ofNat_of_lt short, Int64.toInt_zero]
  exact ⟨Int.dvd_of_tmod_eq_zero, Int.tmod_eq_zero_of_dvd⟩

section Values

variable {address size : Int64} (low : 0 ≤ address.toInt) (low' : 0 ≤ size.toInt)
include low low'

theorem readValue_narrow (narrow : address.toInt + size.toInt < 2 ^ 63) {v : Value}
    (short : ∀ a ∈ v.array?, a.cells.length < 2 ^ 63) : ∃ found, readValue address size v = .ok found := by
  unfold readValue
  split
  · rename_i a
    split
    · rename_i cells known
      have bound : cells.length < 2 ^ 63 := length_values known ▸ short a rfl
      split
      · exact ⟨Option.none, rfl⟩
      · rename_i whole
        rw [Bool.not_eq_true, mod_eq_zero bound, toInt_stride low low', if_pos narrow] at whole
        have first : 0 ≤ (0 : Int64).toInt := by rw [Int64.toInt_zero]
        have read := blocksFrom_returns a low low' narrow bound cells.length first (by simpa using whole)
        obtain ⟨blocks, equal⟩ := read
        exact ⟨some blocks, by rw [equal]; rfl⟩
    · exact ⟨Option.none, rfl⟩
  · exact ⟨Option.none, rfl⟩

theorem readValue_wrapped (wraps : 2 ^ 63 ≤ address.toInt + size.toInt) {v : Value}
    (short : ∀ a ∈ v.array?, a.cells.length < 2 ^ 63) :
    ((∃ p, readValue address size v = .error p) ↔ ∃ a, v = .array a ∧ Overruns address size a) ∧
      ((∃ blocks, readValue address size v = .ok (some blocks)) ↔ ∃ a, v = .array a ∧ a.cells = []) := by
  have stride := (stride_wrapped low low' wraps).1
  cases v with
  | array a =>
    simp only [readValue, Value.array.injEq, exists_eq_left']
    cases known : a.values? with
    | none =>
      have full : a.cells ≠ [] := by
        intro empty
        simp [CellArray.values?, empty] at known
      simp [Overruns, known, full]
    | some cells =>
      have length := length_values known
      have bound : cells.length < 2 ^ 63 := length ▸ short a rfl
      have empty : a.cells = [] ↔ cells = [] := by
        rw [← List.length_eq_zero_iff, ← List.length_eq_zero_iff, length]
      simp only [Overruns, known, Option.some.injEq, exists_eq_left', empty]
      rw [← Int.neg_dvd, ← stride, ← mod_eq_zero bound]
      by_cases none : cells = []
      · subst none
        simp [blocksFrom, Except.map]
      · obtain ⟨p, outside⟩ := blocksFrom_wrapped a low low' wraps none
        cases Int64.ofNat cells.length % (address + size) != 0 <;> simp [none, outside, Except.map]
  | _ => simp [readValue]

theorem readValues_overrun_iff {vs : List Value} (short : ∀ a, Value.array a ∈ vs → a.cells.length < 2 ^ 63) :
    (∃ p, readValues address size vs = .error p) ↔ 2 ^ 63 ≤ address.toInt + size.toInt ∧ ∃ front a rest,
      vs = front ++ .array a :: rest ∧ (∀ v ∈ front, ∃ b, v = .array b ∧ b.cells = []) ∧ Overruns address size a := by
  induction vs with
  | nil => simp [readValues]
  | cons v rest ih =>
    have first : ∀ a ∈ v.array?, a.cells.length < 2 ^ 63 := by
      intro a here
      cases v <;> cases here
      exact short a List.mem_cons_self
    have later := ih fun a member => short a (List.mem_cons_of_mem v member)
    rw [overruns_cons]
    by_cases wraps : 2 ^ 63 ≤ address.toInt + size.toInt
    · obtain ⟨leaves, blocks⟩ := readValue_wrapped low low' wraps first
      simp only [wraps, true_and] at later ⊢
      rw [← leaves, ← blocks, ← later, readValues]
      rcases readValue address size v with p | found | _
      · simp [bind, Except.bind]
      · simp [bind, Except.bind, pure, Except.pure]
      · cases readValues address size rest <;> simp [bind, Except.bind, pure, Except.pure]
    · obtain ⟨found, read⟩ := readValue_narrow low low' (not_le.mp wraps) first
      simp only [wraps, false_and, iff_false] at later ⊢
      rw [readValues, read]
      cases found with
      | none => simp [bind, Except.bind, pure, Except.pure]
      | some blocks =>
        cases more : readValues address size rest with
        | error p => exact absurd ⟨p, more⟩ later
        | ok _ => simp [bind, Except.bind, pure, Except.pure]

end Values

theorem count_nonneg {n : Node} {name : Bytes} {v : Int64} (counted : count? n name = some v) : 0 ≤ v.toInt := by
  unfold count? at counted
  split at counted
  · split at counted
    · split at counted
      · cases counted
      · rename_i w _ low
        cases counted
        simpa [Int64.lt_iff_toInt_lt] using low
    · cases counted
  · cases counted

end Registers

namespace Tree
open Registers

theorem inheritedWidth_nonneg {t : Tree} {id : NodeId} {name : Bytes} {default v : Int64} (positive : 0 ≤ default.toInt)
    (width : t.inheritedWidth id name default = some v) : 0 ≤ v.toInt := by
  unfold inheritedWidth at width
  split at width
  · exact count_nonneg width
  · cases width
    exact positive

theorem cellWidths_nonneg {t : Tree} {id : NodeId} {address size : Int64}
    (widths : t.cellWidths id = some (address, size)) : 0 ≤ address.toInt ∧ 0 ≤ size.toInt := by
  unfold cellWidths at widths
  split at widths
  · rename_i one two
    cases widths
    exact ⟨inheritedWidth_nonneg (by decide) one, inheritedWidth_nonneg (by decide) two⟩
  · cases widths

-- The list of register cells is left exactly if the two widths add up to 2^63 or more and the number of cells in
-- the first array that has some is a multiple of what the sum lacks of 2^64. A list has fewer than 2^63 elements.
theorem registers_overrun_iff (t : Tree) (id : NodeId)
    (short : ∀ p, (t.node id).property? (utf8 "reg") = some p → ∀ a, Value.array a ∈ p.values →
      a.cells.length < 2 ^ 63) :
    (∃ stopped, t.registers id = .error stopped) ↔ ∃ parent address size p, (t.node id).parent = some parent ∧
      t.cellWidths parent = some (address, size) ∧ (t.node id).property? (utf8 "reg") = some p ∧
      2 ^ 63 ≤ address.toInt + size.toInt ∧ ∃ front a rest, p.values = front ++ .array a :: rest ∧
        (∀ v ∈ front, ∃ b, v = .array b ∧ b.cells = []) ∧ Overruns address size a := by
  cases above : (t.node id).parent with
  | none => simp [registers, above]
  | some parent =>
    cases widths : t.cellWidths parent with
    | none => simp [registers, above, widths]
    | some pair =>
      obtain ⟨address, size⟩ := pair
      obtain ⟨low, low'⟩ := cellWidths_nonneg widths
      cases listed : (t.node id).property? (utf8 "reg") with
      | none => simp [registers, above, widths, listed]
      | some p =>
        have read := readValues_overrun_iff low low' (short p listed)
        simp only [registers, above, widths, listed, Option.some.injEq, Prod.mk.injEq, exists_and_left, exists_eq_left',
          and_assoc]
        split
        · rename_i still
          rw [stride_eq_zero low low'] at still
          constructor
          · rintro ⟨stopped, none⟩
            cases none
          · rintro ⟨wraps, -⟩
            omega
        · rw [← read]
          cases readValues address size p.values <;> simp [Except.map]

-- Two widths of 2^63 - 1 are a stride of -2, which divides the two cells.
def widest : Tree :=
  let widths := "#address-cells = <0x7fffffffffffffff>; #size-cells = <0x7fffffffffffffff>;"
  let text := utf8 ("/ \x7b " ++ widths ++ " n \x7b reg = <1 2>; \x7d; \x7d;")
  merge [] [utf8 "/a.dts"] [File.ofText (.ofTable []) [] (utf8 "/a.dts") text] none

theorem widest_read : widest.registers 1 = .error (.pastEnd 0x7fffffffffffffff 2) ∧
    (widest.node 1).parent = some 0 ∧
    (((widest.node 1).property? (utf8 "reg")).all fun p =>
      p.values.all fun v => v.array?.all fun a => decide (a.cells.length < 2 ^ 63)) = true := by
  decide +kernel

theorem widest_overrun : widest.registers 1 = .error (.pastEnd 0x7fffffffffffffff 2) := widest_read.1

theorem widest_stride_wraps :
    (∀ p, (widest.node 1).property? (utf8 "reg") = some p → ∀ a, Value.array a ∈ p.values → a.cells.length < 2 ^ 63) ∧
      ∃ address size, widest.cellWidths 0 = some (address, size) ∧ 2 ^ 63 ≤ address.toInt + size.toInt := by
  obtain ⟨leaves, root, each⟩ := widest_read
  have short : ∀ p, (widest.node 1).property? (utf8 "reg") = some p → ∀ a, Value.array a ∈ p.values →
      a.cells.length < 2 ^ 63 := by
    intro p listed a member
    rw [listed, Option.all_some, List.all_eq_true] at each
    exact of_decide_eq_true (each _ member)
  obtain ⟨parent, address, size, p, above, widths, -, wraps, -⟩ := (registers_overrun_iff widest 1 short).mp ⟨_, leaves⟩
  cases root.symm.trans above
  exact ⟨short, address, size, widths, wraps⟩

end Tree
end DeviceTree
