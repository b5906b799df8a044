import DeviceTree.Proofs.RegisterBlocks
import DeviceTree.Tree.Flash

namespace DeviceTree

namespace Partition

def Holds (p : Partition) (x : Nat) : Prop := p.address.toNat ≤ x ∧ x < p.stop.toNat

def bare (p : Partition) : Partition := { p with overlap := 0 }

theorem address_le_stop (p : Partition) : p.address.toNat ≤ p.stop.toNat := by
  have bound := p.address.toNat_lt
  rw [stop, RegBlock.toNat_stopOf]
  omega

def reach (ps : List Partition) : Nat := (ps.map fun p => p.stop.toNat).foldr max 0

theorem reach_bare (ps : List Partition) : reach (ps.map bare) = reach ps := by
  rw [reach, List.map_map]
  rfl

theorem stop_le_reach {ps : List Partition} {p : Partition} (member : p ∈ ps) : p.stop.toNat ≤ reach ps := by
  induction ps with
  | nil => cases member
  | cons q rest ih =>
    rcases List.mem_cons.mp member with rfl | later
    · exact Nat.le_max_left _ _
    · exact (ih later).trans (Nat.le_max_right _ _)

end Partition

def Gap.stop (g : Gap) : Nat := g.address.toNat + g.size.toNat

def Gap.Holds (g : Gap) (x : Nat) : Prop := g.address.toNat ≤ x ∧ x < g.stop

namespace FlashLayout

-- Gaps from one address up to another: not empty, each behind the one before it, and together all that no partition
-- takes.
structure Fills (gaps : List Gap) (ps : List Partition) (low high : Nat) : Prop where
  nonempty : ∀ g ∈ gaps, g.address.toNat < g.stop
  apart : gaps.Pairwise fun g h => g.stop ≤ h.address.toNat
  inside : ∀ g ∈ gaps, low ≤ g.address.toNat ∧ g.stop ≤ high
  free : ∀ x, low ≤ x → x < high → ((∃ g ∈ gaps, g.Holds x) ↔ ∀ p ∈ ps, ¬ p.Holds x)

namespace Fills

theorem empty (low : Nat) : Fills [] [] low low where
  nonempty := List.forall_mem_nil _
  apart := .nil
  inside := List.forall_mem_nil _
  free _ lower upper := absurd lower (Nat.not_le.mpr upper)

variable {gaps : List Gap} {ps : List Partition} {low high : Nat}

theorem covered {p : Partition} (begins : p.address.toNat ≤ low) (fills : Fills gaps ps (max low p.stop.toNat) high) :
    Fills gaps (p :: ps) low high where
  nonempty := fills.nonempty
  apart := fills.apart
  inside g member := (fills.inside g member).imp_left (Nat.le_max_left _ _).trans
  free x lower upper := by
    rw [List.forall_mem_cons]
    by_cases taken : x < p.stop.toNat
    · have held : p.Holds x := ⟨begins.trans lower, taken⟩
      refine ⟨fun ⟨g, member, holds⟩ => ?_, fun clear => absurd held clear.1⟩
      have above := (Nat.le_max_right _ _).trans (fills.inside g member).1
      exact absurd (above.trans holds.1) (Nat.not_le.mpr taken)
    · rw [fills.free x (max_le lower (Nat.not_lt.mp taken)) upper]
      exact ⟨fun clear => ⟨fun holds => taken holds.2, clear⟩, And.right⟩

theorem before {p : Partition} {g : Gap} (start : g.address.toNat = low) (stop : g.stop = p.address.toNat)
    (begins : low < p.address.toNat) (later : ∀ q ∈ ps, p.address.toNat ≤ q.address.toNat)
    (fills : Fills gaps (p :: ps) p.address.toNat high) (bound : p.address.toNat ≤ high) :
    Fills (g :: gaps) (p :: ps) low high where
  nonempty := List.forall_mem_cons.mpr ⟨by omega, fills.nonempty⟩
  apart := List.pairwise_cons.mpr ⟨fun h member => stop.trans_le (fills.inside h member).1, fills.apart⟩
  inside := List.forall_mem_cons.mpr
    ⟨⟨start.ge, stop.trans_le bound⟩, fun h member => (fills.inside h member).imp_left begins.le.trans⟩
  free x lower upper := by
    simp only [List.mem_cons, exists_eq_or_imp]
    by_cases early : x < p.address.toNat
    · have held : g.Holds x := ⟨start.trans_le lower, early.trans_eq stop.symm⟩
      refine ⟨fun _ q member holds => ?_, fun _ => .inl held⟩
      have above : p.address.toNat ≤ q.address.toNat := member.elim (fun same => same ▸ Nat.le_refl _) (later q)
      exact absurd (above.trans holds.1) (Nat.not_le.mpr early)
    · have passed : ¬ g.Holds x := fun holds => early (holds.2.trans_eq stop)
      rw [or_iff_right passed]
      exact (fills.free x (Nat.not_lt.mp early) upper).trans ⟨fun clear q member => clear q (List.mem_cons.mpr member),
        fun clear q member => clear q (List.mem_cons.mp member)⟩

theorem beyond {limit : Nat} {g : Gap} (start : g.address.toNat = high) (stop : g.stop = limit) (more : high < limit)
    (last : ∀ p ∈ ps, p.stop.toNat ≤ high) (order : low ≤ high) (fills : Fills gaps ps low high) :
    Fills (gaps ++ [g]) ps low limit where
  nonempty := List.forall_mem_append.mpr ⟨fills.nonempty, List.forall_mem_singleton.mpr (by omega)⟩
  apart := List.pairwise_append.mpr ⟨fills.apart, List.pairwise_singleton _ _, fun h member k only => by
    rw [List.mem_singleton.mp only, start]
    exact (fills.inside h member).2⟩
  inside := List.forall_mem_append.mpr ⟨fun h member => (fills.inside h member).imp_right (·.trans more.le),
    List.forall_mem_singleton.mpr ⟨order.trans_eq start.symm, stop.le⟩⟩
  free x lower upper := by
    simp only [List.mem_append, List.mem_singleton, or_and_right, exists_or, exists_eq_left]
    by_cases early : x < high
    · have passed : ¬ g.Holds x := fun holds => absurd holds.1 (by omega)
      rw [or_iff_left passed]
      exact fills.free x lower early
    · have held : g.Holds x := ⟨by omega, by omega⟩
      refine ⟨fun _ p member holds => ?_, fun _ => .inr held⟩
      exact early (holds.2.trans_le (last p member))

end Fills

theorem toNat_max (a b : UInt64) : (max a b).toNat = max a.toNat b.toNat := by
  have either : max a b = if a ≤ b then b else a := rfl
  rw [either]
  split
  · rename_i order
    exact (Nat.max_eq_right (UInt64.le_iff_toNat_le.mp order)).symm
  · rename_i order
    exact (Nat.max_eq_left (Nat.le_of_not_le fun le => order (UInt64.le_iff_toNat_le.mpr le))).symm

theorem sweep_bare (offset : UInt64) (ps : List Partition) :
    (sweep offset ps).1.map Partition.bare = ps.map Partition.bare := by
  induction ps generalizing offset with
  | nil => rfl
  | cons p rest ih =>
    rw [sweep, List.map_cons, List.map_cons, ih]
    rfl

theorem mem_sweep {offset : UInt64} {ps : List Partition} {p : Partition} (member : p ∈ (sweep offset ps).1) :
    ∃ q ∈ ps, q.bare = p.bare := by
  have bare := List.mem_map_of_mem (f := Partition.bare) member
  rwa [sweep_bare, List.mem_map] at bare

theorem sweep_stop (offset : UInt64) (ps : List Partition) :
    (sweep offset ps).2.2.toNat = max offset.toNat (Partition.reach ps) := by
  induction ps generalizing offset with
  | nil => exact (Nat.max_zero _).symm
  | cons p rest ih =>
    rw [sweep, ih, toNat_max, Nat.max_assoc]
    rfl

-- An entry reaches back behind the greatest end before it, if at all.
theorem sweep_overlap (offset : UInt64) (ps : List Partition) {front back : List Partition} {p : Partition}
    (split : (sweep offset ps).1 = front ++ p :: back) :
    (p.overlap.toNat : Int) = max 0 ((max offset.toNat (Partition.reach front) : Nat) - p.address.toNat : Int) := by
  induction ps generalizing offset front with
  | nil => simp [sweep] at split
  | cons q rest ih =>
    rw [sweep] at split
    cases front with
    | nil =>
      obtain ⟨rfl, -⟩ := List.cons.inj split
      have none : Partition.reach [] = 0 := rfl
      rw [none, Nat.max_zero]
      dsimp only
      split
      · rename_i below
        rw [UInt64.toNat_sub_of_le _ _ (UInt64.le_of_lt below)]
        rw [UInt64.lt_iff_toNat_lt] at below
        omega
      · rename_i above
        rw [UInt64.lt_iff_toNat_lt] at above
        rw [UInt64.toNat_zero]
        omega
    | cons r front =>
      obtain ⟨rfl, later⟩ := List.cons.inj split
      rw [ih _ later, toNat_max, Nat.max_assoc]
      rfl

theorem stop_gap {offset stop : UInt64} (above : offset < stop) : (Gap.mk offset (stop - offset)).stop = stop.toNat := by
  rw [Gap.stop, UInt64.toNat_sub_of_le _ _ (UInt64.le_of_lt above)]
  exact Nat.add_sub_cancel' (UInt64.le_iff_toNat_le.mp (UInt64.le_of_lt above))

theorem sweep_ends {offset : UInt64} {ps : List Partition} {g : Gap} (member : g ∈ (sweep offset ps).2.1) :
    ∃ p ∈ (sweep offset ps).1, g.stop = p.address.toNat := by
  induction ps generalizing offset with
  | nil => cases member
  | cons p rest ih =>
    rw [sweep] at member ⊢
    rcases List.mem_append.mp member with here | later
    · split at here
      · rename_i above
        rw [List.mem_singleton.mp here]
        exact ⟨_, List.mem_cons_self, stop_gap above⟩
      · cases here
    · obtain ⟨q, there, equal⟩ := ih later
      exact ⟨q, List.mem_cons_of_mem _ there, equal⟩

theorem sweep_fills (offset : UInt64) {ps : List Partition} (sorted : ps.Pairwise fun p q => p.address ≤ q.address) :
    Fills (sweep offset ps).2.1 (sweep offset ps).1 offset.toNat (sweep offset ps).2.2.toNat := by
  induction ps generalizing offset with
  | nil => exact .empty _
  | cons p rest ih =>
    obtain ⟨first, later⟩ := List.pairwise_cons.mp sorted
    have fills := ih (max offset p.stop) later
    rw [toNat_max] at fills
    rw [sweep]
    dsimp only
    by_cases above : p.address > offset
    · have begins : offset.toNat < p.address.toNat := UInt64.lt_iff_toNat_lt.mp above
      have merged : max offset.toNat p.stop.toNat = max p.address.toNat p.stop.toNat := by
        have order := p.address_le_stop
        omega
      rw [merged] at fills
      have bound : p.address.toNat ≤ (sweep (max offset p.stop) rest).2.2.toNat := by
        rw [sweep_stop, toNat_max, merged]
        omega
      rw [if_pos above, List.singleton_append]
      refine .before rfl (stop_gap above) begins (fun q member => ?_) (.covered (Nat.le_refl _) fills) bound
      obtain ⟨r, there, same⟩ := mem_sweep member
      have order := UInt64.le_iff_toNat_le.mp (first r there)
      have equal : r.bare.address = q.bare.address := congrArg Partition.address same
      rwa [show r.address = q.address from equal] at order
    · rw [if_neg above]
      exact .covered (Nat.le_of_not_lt fun below => above (UInt64.lt_iff_toNat_lt.mpr below)) fills

end FlashLayout

def Tree.hasBlock (t : Tree) (id : NodeId) : Bool :=
  match t.registers id with
  | .ok r => r.known && !r.blocks.isEmpty
  | .error _ => false

namespace FlashLayout

structure Charts (t : Tree) (l : FlashLayout) : Prop where
  device : l.flash = (t.node l.partitions).parent
  capacity : ∀ c, l.capacity = some c ↔ ∃ f r b rest, l.flash = some f ∧ t.registers f = .ok r ∧ r.known = true ∧
    r.blocks = b :: rest ∧ b.size = c
  read : ∀ c ∈ (t.node l.partitions).children, ∃ r, t.registers c = .ok r
  children : (l.entries.map Partition.node).Perm ((t.node l.partitions).children.filter t.hasBlock)
  placed : ∀ p ∈ l.entries, ∃ r b rest, t.registers p.node = .ok r ∧ r.blocks = b :: rest ∧ p.address = b.address ∧
    p.size = b.size
  sorted : l.entries.Pairwise fun p q => p.address < q.address ∨
    p.address = q.address ∧ [p.node, q.node].Sublist (t.node l.partitions).children
  overlap : ∀ front p back, l.entries = front ++ p :: back →
    (p.overlap.toNat : Int) = max 0 ((Partition.reach front : Int) - p.address.toNat)
  gaps : Fills l.gaps l.entries 0 (max (Partition.reach l.entries) (l.capacity.elim 0 UInt64.toNat))
  ends : ∀ g ∈ l.gaps, (∃ p ∈ l.entries, g.stop = p.address.toNat) ∨ ∃ c, l.capacity = some c ∧ g.stop = c.toNat

end FlashLayout

namespace Tree
open FlashLayout

theorem firstBlock_eq_some {t : Tree} {id : NodeId} {b : RegBlock} :
    t.firstBlock? id = .ok (some b) ↔ ∃ r rest, t.registers id = .ok r ∧ r.known = true ∧ r.blocks = b :: rest := by
  rw [firstBlock?, Except.map_eq_ok]
  refine exists_congr fun r => ?_
  cases r.known <;> simp [List.head?_eq_some_iff]

theorem hasBlock_iff {t : Tree} {id : NodeId} {first : Option RegBlock} (read : t.firstBlock? id = .ok first) :
    t.hasBlock id = first.isSome := by
  obtain ⟨r, back, rfl⟩ := Except.map_eq_ok.mp read
  rw [hasBlock, back]
  dsimp only
  cases r.known <;> cases r.blocks <;> rfl

theorem partition_eq_some {t : Tree} {id : NodeId} {p : Partition} (found : t.partition? id = .ok (some p)) :
    p.node = id ∧ p.overlap = 0 ∧ ∃ b, t.firstBlock? id = .ok (some b) ∧ p.address = b.address ∧ p.size = b.size := by
  obtain ⟨first, read, made⟩ := Except.map_eq_ok.mp found
  obtain ⟨b, rfl, rfl⟩ := Option.map_eq_some_iff.mp made
  exact ⟨rfl, rfl, b, read, rfl, rfl⟩

def byAddress (ps : List Partition) : List Partition := ps.mergeSort fun a b => a.address ≤ b.address

theorem byAddress_sorted (ps : List Partition) : (byAddress ps).Pairwise fun p q => p.address ≤ q.address :=
  mergeSort_ordered Partition.address _

theorem reach_entries (t : Tree) (n : NodeId) (capacity : Option UInt64) (ps : List Partition) :
    Partition.reach (t.chart n capacity ps).entries = (sweep 0 (byAddress ps)).2.2.toNat := by
  have entries : (t.chart n capacity ps).entries = (sweep 0 (byAddress ps)).1 := rfl
  rw [entries, sweep_stop, UInt64.toNat_zero, Nat.zero_max, ← Partition.reach_bare, sweep_bare, Partition.reach_bare]

theorem gaps_chart (t : Tree) (n : NodeId) (capacity : Option UInt64) (ps : List Partition) :
    (t.chart n capacity ps).gaps = (sweep 0 (byAddress ps)).2.1 ++
      match capacity with
      | some c =>
        if (sweep 0 (byAddress ps)).2.2 < c then
          [⟨(sweep 0 (byAddress ps)).2.2, c - (sweep 0 (byAddress ps)).2.2⟩]
        else []
      | none => [] := rfl

theorem chart_fills (t : Tree) (n : NodeId) (capacity : Option UInt64) (ps : List Partition) :
    Fills (t.chart n capacity ps).gaps (t.chart n capacity ps).entries 0
      (max (Partition.reach (t.chart n capacity ps).entries) (capacity.elim 0 UInt64.toNat)) := by
  have fills := sweep_fills 0 (byAddress_sorted ps)
  have last : ∀ p ∈ (t.chart n capacity ps).entries, p.stop.toNat ≤ (sweep 0 (byAddress ps)).2.2.toNat :=
    fun p member => reach_entries t n capacity ps ▸ Partition.stop_le_reach member
  rw [gaps_chart, reach_entries]
  cases capacity with
  | none =>
    rw [Option.elim_none, Nat.max_zero, List.append_nil]
    exact fills
  | some c =>
    dsimp only [Option.elim_some]
    split
    · rename_i more
      have more' := UInt64.lt_iff_toNat_lt.mp more
      rw [Nat.max_eq_right more'.le]
      exact fills.beyond rfl (stop_gap more) more' last (Nat.zero_le _)
    · rename_i full
      rw [UInt64.lt_iff_toNat_lt] at full
      rw [Nat.max_eq_left (Nat.not_lt.mp full), List.append_nil]
      exact fills

section Children

variable {t : Tree} {cs : List NodeId} {read : List (Option Partition)}
  (each : cs.map t.partition? = read.map .ok)
include each

theorem node_partitions : (read.filterMap id).map Partition.node = cs.filter t.hasBlock := by
  induction cs generalizing read with
  | nil =>
    cases List.map_eq_nil_iff.mp each.symm
    rfl
  | cons c rest ih =>
    obtain ⟨found, more, rfl, here, later⟩ := List.map_eq_cons_iff.mp each.symm
    obtain ⟨first, block, rfl⟩ := Except.map_eq_ok.mp here.symm
    have has := hasBlock_iff block
    cases first with
    | none => rw [Option.map_none, List.filterMap_cons_none rfl, List.filter_cons_of_neg (by simp [has]), ih later.symm]
    | some b =>
      rw [List.filter_cons_of_pos (by simp [has]), ← ih later.symm]
      rfl

theorem mem_partitions {p : Partition} (member : p ∈ read.filterMap id) : t.partition? p.node = .ok (some p) := by
  obtain ⟨found, listed, some⟩ := List.mem_filterMap.mp member
  cases some
  obtain ⟨c, -, here⟩ := List.mem_map.mp (each ▸ List.mem_map_of_mem listed)
  obtain ⟨rfl, -⟩ := partition_eq_some here
  exact here

-- Partitions of one address keep the order in which they were declared.
theorem byAddress_ties {p q : Partition} (ordered : [p, q].Sublist (byAddress (read.filterMap id)))
    (same : p.address = q.address) : [p.node, q.node].Sublist cs := by
  have tied := ordered.filter fun x => x.address = p.address
  rw [byAddress, mergeSort_stable Partition.address] at tied
  rw [show [p, q].filter (fun x => x.address = p.address) = [p, q] by simp [same]] at tied
  have nodes := (tied.trans List.filter_sublist).map Partition.node
  rw [node_partitions each] at nodes
  exact nodes.trans List.filter_sublist

theorem byAddress_bare : (byAddress (read.filterMap id)).map Partition.bare = byAddress (read.filterMap id) := by
  refine (List.map_congr_left fun p member => ?_).trans (List.map_id _)
  obtain ⟨-, none, -⟩ := partition_eq_some (mem_partitions each (List.mem_mergeSort.mp member))
  rw [Partition.bare, ← none]
  rfl

variable (n : NodeId) (capacity : Option UInt64)

theorem entries_bare :
    (t.chart n capacity (read.filterMap id)).entries.map Partition.bare = byAddress (read.filterMap id) :=
  (sweep_bare 0 _).trans (byAddress_bare each)

theorem mem_entries {p : Partition} (member : p ∈ (t.chart n capacity (read.filterMap id)).entries) :
    ∃ b, t.firstBlock? p.node = .ok (some b) ∧ p.address = b.address ∧ p.size = b.size := by
  have bare : p.bare ∈ byAddress (read.filterMap id) := entries_bare each n capacity ▸ List.mem_map_of_mem member
  obtain ⟨-, -, b, first, address, size⟩ := partition_eq_some (mem_partitions each (List.mem_mergeSort.mp bare))
  exact ⟨b, first, address, size⟩

theorem entries_sorted : (t.chart n capacity (read.filterMap id)).entries.Pairwise fun p q => p.address < q.address ∨
    p.address = q.address ∧ [p.node, q.node].Sublist cs := by
  refine List.pairwise_iff_forall_sublist.mpr fun {p q} ordered => ?_
  have bare : [p.bare, q.bare].Sublist (byAddress (read.filterMap id)) :=
    entries_bare each n capacity ▸ ordered.map Partition.bare
  have order : p.bare.address ≤ q.bare.address := List.pairwise_iff_forall_sublist.mp (byAddress_sorted _) bare
  rcases UInt64.lt_or_eq_of_le order with below | same
  · exact .inl below
  · exact .inr ⟨same, byAddress_ties each (p := p.bare) (q := q.bare) bare same⟩

end Children

theorem capacity_iff {t : Tree} {flash : Option NodeId} {capacity : Option UInt64} (read : t.capacity? flash = .ok capacity)
    (c : UInt64) : capacity = some c ↔ ∃ f r b rest, flash = some f ∧ t.registers f = .ok r ∧ r.known = true ∧
      r.blocks = b :: rest ∧ b.size = c := by
  cases flash with
  | none =>
    cases read
    simp
  | some f =>
    obtain ⟨first, block, rfl⟩ := Except.map_eq_ok.mp read
    rw [Option.map_eq_some_iff]
    constructor
    · rintro ⟨b, rfl, size⟩
      obtain ⟨r, rest, back, known, blocks⟩ := firstBlock_eq_some.mp block
      exact ⟨f, r, b, rest, rfl, back, known, blocks, size⟩
    · rintro ⟨_, r, b, rest, ⟨⟩, back, known, blocks, size⟩
      have same := block.symm.trans (firstBlock_eq_some.mpr ⟨r, rest, back, known, blocks⟩)
      exact ⟨b, Except.ok.inj same, size⟩

theorem layoutOf_charts {t : Tree} {n : NodeId} {l : FlashLayout} (found : t.layoutOf n = .ok l) :
    l.partitions = n ∧ l.Charts t := by
  obtain ⟨capacity, limit, found⟩ := Except.bind_eq_ok.mp found
  obtain ⟨read, each, made⟩ := Except.bind_eq_ok.mp found
  cases made
  replace each := Except.mapM_eq_ok.mp each
  refine ⟨rfl, ?_⟩
  exact {
    device := rfl
    capacity := capacity_iff limit
    read := fun c child => by
      obtain ⟨p, -, here⟩ := List.mem_map.mp (each ▸ List.mem_map_of_mem child)
      obtain ⟨first, block, -⟩ := Except.map_eq_ok.mp here.symm
      obtain ⟨r, back, -⟩ := Except.map_eq_ok.mp block
      exact ⟨r, back⟩
    children := by
      have nodes := congrArg (List.map Partition.node) (entries_bare each n capacity)
      rw [List.map_map] at nodes
      change ((t.chart n capacity (read.filterMap id)).entries.map Partition.node).Perm _
      rw [show (t.chart n capacity (read.filterMap id)).entries.map Partition.node =
        (byAddress (read.filterMap id)).map Partition.node from nodes]
      exact ((List.mergeSort_perm _ _).map _).trans (.of_eq (node_partitions each))
    placed := fun p member => by
      obtain ⟨b, first, address, size⟩ := mem_entries each n capacity member
      obtain ⟨r, rest, back, -, blocks⟩ := firstBlock_eq_some.mp first
      exact ⟨r, b, rest, back, blocks, address, size⟩
    sorted := entries_sorted each n capacity
    overlap := fun front p back split => by
      have reach := sweep_overlap 0 (byAddress (read.filterMap id)) split
      rwa [UInt64.toNat_zero, Nat.zero_max] at reach
    gaps := t.chart_fills n capacity _
    ends := fun g member => by
      rw [gaps_chart] at member
      rcases List.mem_append.mp member with between | behind
      · exact .inl (sweep_ends between)
      · split at behind
        · split at behind
          · rename_i more
            rw [List.mem_singleton.mp behind]
            exact .inr ⟨_, rfl, stop_gap more⟩
          · cases behind
        · cases behind }

-- A map is that of a `fixed-partitions` node, the node itself or the first such child, and says what is there.
theorem partitions_charts {t : Tree} {id : NodeId} {l : FlashLayout} (found : t.partitions? id = .ok (some l)) :
    t.isPartitions l.partitions = true ∧ (l.partitions = id ∨
      t.isPartitions id = false ∧ (t.node id).children.find? t.isPartitions = some l.partitions) ∧ l.Charts t := by
  unfold partitions? at found
  split at found
  · rename_i here
    obtain ⟨_, layout, ⟨⟩⟩ := Except.map_eq_ok.mp found
    obtain ⟨rfl, charts⟩ := layoutOf_charts layout
    exact ⟨here, .inl rfl, charts⟩
  · rename_i other
    split at found
    · rename_i c child
      obtain ⟨_, layout, ⟨⟩⟩ := Except.map_eq_ok.mp found
      obtain ⟨rfl, charts⟩ := layoutOf_charts layout
      exact ⟨List.find?_some child, .inr ⟨by simpa using other, child⟩, charts⟩
    · cases found

def flashFile : File :=
  let entries := "z \x7b reg = <50 0>; \x7d; a \x7b reg = <0 40>; \x7d; b \x7b reg = <9 20>; \x7d; "
  let partitions := "p \x7b #address-cells = <1>; compatible = \"fixed-partitions\"; " ++ entries ++ "\x7d; "
  .ofText (.ofTable []) [] (utf8 "/a.dts") (utf8 ("/ \x7b f \x7b reg = <0 0 99>; " ++ partitions ++ "\x7d; \x7d;"))

def flash : Tree := merge [] [utf8 "/a.dts"] [flashFile] none

theorem flash_read : flash.isPartitions 1 = false ∧ (flash.node 1).children.find? flash.isPartitions = some 2 ∧
    flash.capacity? (flash.node 2).parent = .ok (some 99) ∧
    (flash.node 2).children.mapM flash.partition? =
      .ok [some ⟨3, utf8 "z", 50, 0, 0⟩, some ⟨4, utf8 "a", 0, 40, 0⟩, some ⟨5, utf8 "b", 9, 20, 0⟩] := by
  decide +kernel

theorem flash_layout : ∃ l, flash.layoutOf 2 = .ok l ∧ l.gaps = [⟨40, 10⟩, ⟨50, 49⟩] := by
  obtain ⟨-, -, capacity, found⟩ := flash_read
  rw [layoutOf, capacity, found]
  refine ⟨_, rfl, ?_⟩
  rw [gaps_chart]
  cbv

theorem flash_charts : ∃ l, flash.partitions? 1 = .ok (some l) ∧ l.gaps.length = 2 ∧ l.partitions = 2 ∧
    l.Charts flash := by
  obtain ⟨device, child, -, -⟩ := flash_read
  obtain ⟨l, layout, gaps⟩ := flash_layout
  have found : flash.partitions? 1 = .ok (some l) := by
    simp only [partitions?, device, child, Bool.false_eq_true, if_false, layout]
    rfl
  exact ⟨l, found, by rw [gaps]; rfl, (layoutOf_charts layout).1, (partitions_charts found).2.2⟩

end Tree
end DeviceTree
