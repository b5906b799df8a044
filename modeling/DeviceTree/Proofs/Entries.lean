import DeviceTree.Proofs.Registers
import DeviceTree.Tree.Reference

namespace DeviceTree.Tree

-- The target of a reference says how many cells it takes: a property with one value, which has one cell, a number.
inductive Asks (t : Tree) (space : Bytes) : Option NodeId → Nat → Prop where
  | cell {id : NodeId} {p : Property} {a : CellArray} {range : Range} {raw : Bytes} {v : Int64} {count : Nat}
      (declares : (t.node id).property? (utf8 "#" ++ space ++ utf8 "-cells") = some p) (single : p.values = [.array a])
      (number : a.cells = [.int range raw (some v)]) (value : v.toInt = count) : Asks t space (some id) count

structure Piece where
  entry : Entry
  gap : List Cell

def Piece.cells (x : Piece) : List Cell := .ref x.entry.ref :: (x.entry.cells ++ x.gap)

structure Piece.Cut (t : Tree) (space : Bytes) (x : Piece) (after : List Piece) : Prop where
  target : x.entry.target = t.resolve x.entry.ref.target
  asked : ∀ count, t.Asks space x.entry.target count →
    x.entry.cells.length = count ∨ x.entry.cells.length < count ∧ x.gap = [] ∧ after = []
  unasked : (∀ count, ¬ t.Asks space x.entry.target count) → (∀ c ∈ x.entry.cells, c.isRef = false) ∧ x.gap = []
  refs : ∀ r, .ref r ∈ x.entry.cells → ∃ count, t.Asks space x.entry.target count
  gap : ∀ c ∈ x.gap, c.isRef = false ∧ t.Asks space x.entry.target x.entry.cells.length

structure Divides (t : Tree) (space : Bytes) (cells : List Cell) (entries : List Entry) (lead : List Cell)
    (pieces : List Piece) : Prop where
  whole : cells = lead ++ pieces.flatMap Piece.cells
  entries : entries = pieces.map Piece.entry
  lead : ∀ c ∈ lead, c.isRef = false
  cut : ∀ before x after, pieces = before ++ x :: after → x.Cut t space after

def asked? (t : Tree) (space : Bytes) (target : Option NodeId) : Option Int64 :=
  target.bind fun id => Registers.count? (t.node id) (utf8 "#" ++ space ++ utf8 "-cells")

variable {t : Tree} {space : Bytes}

theorem values_single {a : CellArray} {v : Int64} :
    a.values? = some [v] ↔ ∃ range raw, a.cells = [.int range raw (some v)] := by
  unfold CellArray.values?
  constructor
  · intro single
    cases cells : a.cells with
    | nil => simp [cells] at single
    | cons c rest =>
      rw [cells, List.mapM_cons] at single
      obtain ⟨w, first, more⟩ := Option.bind_eq_some_iff.mp single
      obtain ⟨ws, others, same⟩ := Option.bind_eq_some_iff.mp more
      cases same
      cases rest with
      | nil =>
        cases c with
        | int range raw value => exact ⟨range, raw, by rw [show value = some v from first]⟩
        | ref r => cases first
      | cons d rest =>
        rw [List.mapM_cons] at others
        obtain ⟨u, _, more⟩ := Option.bind_eq_some_iff.mp others
        obtain ⟨us, _, same⟩ := Option.bind_eq_some_iff.mp more
        cases same
  · rintro ⟨range, raw, single⟩
    rw [single]
    rfl

theorem asks_iff {target : Option NodeId} {count : Nat} :
    t.Asks space target count ↔ ∃ v, t.asked? space target = some v ∧ v.toInt = count := by
  constructor
  · rintro ⟨declares, single, number, value⟩
    rename_i v
    refine ⟨v, ?_, value⟩
    have low : ¬ v < 0 := by
      rw [Int64.lt_iff_toInt_lt, value]
      simp
    have values := values_single.mpr ⟨_, _, number⟩
    simp only [asked?, Option.bind_some, Registers.count?, declares, Option.map_some, single, values, if_neg low]
  · rintro ⟨v, found, value⟩
    obtain ⟨id, rfl, counted⟩ := Option.bind_eq_some_iff.mp found
    unfold Registers.count? at counted
    split at counted
    · rename_i a only
      split at counted
      · rename_i w values
        split at counted
        · cases counted
        · cases counted
          obtain ⟨p, declares, single⟩ := Option.map_eq_some_iff.mp only
          obtain ⟨range, raw, number⟩ := values_single.mp values
          exact .cell declares single number value
      · cases counted
    · cases counted

theorem asked_none {target : Option NodeId} (silent : ∀ count, ¬ t.Asks space target count) :
    t.asked? space target = none := by
  cases found : t.asked? space target with
  | none => rfl
  | some v =>
    obtain ⟨id, -, counted⟩ := Option.bind_eq_some_iff.mp found
    obtain ⟨count, value⟩ := Int.eq_ofNat_of_zero_le (Registers.count_nonneg counted)
    exact absurd (asks_iff.mpr ⟨v, found, value⟩) (silent count)

theorem specifierLength_asked {target : Option NodeId} {count : Nat} (asks : t.Asks space target count)
    (rest : List Cell) : specifierLength (t.asked? space target) rest = min count rest.length := by
  obtain ⟨v, found, value⟩ := asks_iff.mp asks
  rw [found, specifierLength, Int64.toNatClampNeg, value, Int.toNat_natCast]

theorem entriesOf_int (range : Range) (raw : Bytes) (value : Option Int64) (rest : List Cell) :
    t.entriesOf space (.int range raw value :: rest) = t.entriesOf space rest := by
  rw [entriesOf]

theorem entriesOf_ref (r : Ref) (rest : List Cell) {n : Nat}
    (length : specifierLength (t.asked? space (t.resolve r.target)) rest = n) :
    t.entriesOf space (.ref r :: rest) = ⟨r, t.resolve r.target, rest.take n⟩ :: t.entriesOf space (rest.drop n) := by
  subst length
  rw [entriesOf]
  rfl

namespace Divides
variable {cells : List Cell} {entries : List Entry} {lead : List Cell} {pieces : List Piece}

theorem cells_nil (divides : t.Divides space [] entries lead pieces) : lead = [] ∧ pieces = [] := by
  obtain ⟨front, back⟩ := List.append_eq_nil_iff.mp divides.whole.symm
  refine ⟨front, ?_⟩
  cases pieces with
  | nil => rfl
  | cons x after => cases back

theorem lead_nil (divides : t.Divides space cells entries lead pieces) (start : ∀ c ∈ cells.head?, c.isRef = true) :
    lead = [] := by
  cases lead with
  | nil => rfl
  | cons c more =>
    have ref := start c (by rw [divides.whole]; rfl)
    rw [divides.lead c List.mem_cons_self] at ref
    cases ref

theorem int (divides : t.Divides space cells entries lead pieces) {c : Cell} (number : c.isRef = false) :
    t.Divides space (c :: cells) entries (c :: lead) pieces where
  whole := by rw [divides.whole, List.cons_append]
  entries := divides.entries
  lead := List.forall_mem_cons.mpr ⟨number, divides.lead⟩
  cut := divides.cut

theorem cut_asked {target : Option NodeId} {rest : List Cell} {count n : Nat} (asks : t.Asks space target count)
    (length : specifierLength (t.asked? space target) rest = n)
    (divides : t.Divides space (rest.drop n) entries lead pieces) :
    (rest.take n).length = count ∨ (rest.take n).length < count ∧ lead = [] ∧ pieces = [] := by
  rw [specifierLength_asked asks] at length
  by_cases enough : count ≤ rest.length
  · left
    rw [List.length_take]
    omega
  · right
    rw [List.drop_of_length_le (by omega)] at divides
    refine ⟨?_, divides.cells_nil⟩
    rw [List.length_take]
    omega

theorem cut_unasked {target : Option NodeId} {rest : List Cell} {n : Nat}
    (silent : ∀ count, ¬ t.Asks space target count) (length : specifierLength (t.asked? space target) rest = n)
    (divides : t.Divides space (rest.drop n) entries lead pieces) :
    (∀ c ∈ rest.take n, c.isRef = false) ∧ lead = [] := by
  rw [asked_none silent, specifierLength] at length
  have parts : rest.takeWhile (!·.isRef) ++ rest.dropWhile (!·.isRef) = rest := List.takeWhile_append_dropWhile
  have front : rest.take n = rest.takeWhile (!·.isRef) := by
    rw [← parts, List.take_left' length, parts]
  have back : rest.drop n = rest.dropWhile (!·.isRef) := by
    rw [← parts, List.drop_left' length, parts]
  constructor
  · intro c member
    rw [front] at member
    simpa using List.mem_takeWhile_imp member
  · rw [back] at divides
    refine divides.lead_nil fun c first => ?_
    have stop := List.head?_dropWhile_not (!·.isRef) rest
    rw [Option.mem_def.mp first] at stop
    simpa using stop

theorem ref (r : Ref) {rest : List Cell} {n : Nat}
    (length : specifierLength (t.asked? space (t.resolve r.target)) rest = n)
    (divides : t.Divides space (rest.drop n) entries lead pieces) :
    t.Divides space (.ref r :: rest) (⟨r, t.resolve r.target, rest.take n⟩ :: entries) []
      (⟨⟨r, t.resolve r.target, rest.take n⟩, lead⟩ :: pieces) where
  whole := by
    rw [List.nil_append, List.flatMap_cons, Piece.cells, List.cons_append, List.append_assoc, ← divides.whole,
      List.take_append_drop]
  entries := by rw [divides.entries, List.map_cons]
  lead := List.forall_mem_nil _
  cut := by
    intro before x after split
    cases before with
    | cons y before =>
      obtain ⟨-, later⟩ := List.cons.inj split
      exact divides.cut before x after later
    | nil =>
      obtain ⟨rfl, rfl⟩ := List.cons.inj split
      have asked := fun count (asks : t.Asks space (t.resolve r.target) count) => cut_asked asks length divides
      have unasked := fun silent => cut_unasked silent length divides
      refine ⟨rfl, asked, unasked, fun r member => ?_, fun c member => ⟨divides.lead c member, ?_⟩⟩
      · by_contra silent
        cases (unasked (not_exists.mp silent)).1 (.ref r) member
      · by_cases known : ∃ count, t.Asks space (t.resolve r.target) count
        · obtain ⟨count, asks⟩ := known
          rcases asked count asks with full | ⟨-, none, -⟩
          · rwa [full]
          · rw [none] at member
            cases member
        · rw [(unasked (not_exists.mp known)).2] at member
          cases member

end Divides

theorem entriesOf_divides (t : Tree) (space : Bytes) (cells : List Cell) :
    ∃ lead pieces, t.Divides space cells (t.entriesOf space cells) lead pieces := by
  induction cells using entriesOf.induct t space with
  | case1 =>
    rw [entriesOf]
    exact ⟨[], [], rfl, rfl, List.forall_mem_nil _, by simp⟩
  | case2 range raw value rest ih =>
    obtain ⟨lead, pieces, divides⟩ := ih
    rw [entriesOf_int]
    exact ⟨_, _, divides.int rfl⟩
  | case3 r rest target count n ih =>
    obtain ⟨lead, pieces, divides⟩ := ih
    rw [entriesOf_ref r rest rfl]
    exact ⟨_, _, divides.ref r rfl⟩

theorem cells_of_entry {cells : List Cell} {before after : List Entry} {e : Entry}
    (split : t.entriesOf space cells = before ++ e :: after) :
    ∃ front back, cells = front ++ .ref e.ref :: (e.cells ++ back) := by
  obtain ⟨lead, pieces, divides⟩ := t.entriesOf_divides space cells
  obtain ⟨xs, ys, rfl, -, here⟩ := List.map_eq_append_iff.mp (divides.entries.symm.trans split)
  obtain ⟨x, later, rfl, rfl, -⟩ := List.map_eq_cons_iff.mp here
  refine ⟨lead ++ xs.flatMap Piece.cells, x.gap ++ later.flatMap Piece.cells, ?_⟩
  simp only [divides.whole, List.flatMap_append, List.flatMap_cons, Piece.cells, List.append_assoc, List.cons_append]

-- No cell of a property is lost or in two entries, and each reference finds the cells that its target asks for.
theorem entries_divide (t : Tree) (p : Property) :
    ∃ lead pieces, t.Divides (specifierSpace p.name (t.rule? p)) p.cells (t.entries p) lead pieces :=
  t.entriesOf_divides _ _

end DeviceTree.Tree
