import DeviceTree.Proofs.RegisterBlocks
import DeviceTree.Tree.Check

namespace DeviceTree

def pairs {α : Type} : List α → List (α × α)
  | [] => []
  | a :: rest => rest.map (a, ·) ++ pairs rest

section Pairs

variable {α β : Type}

theorem mem_pairs {xs : List α} {a b : α} : (a, b) ∈ pairs xs ↔ [a, b].Sublist xs := by
  induction xs with
  | nil => simp [pairs]
  | cons x rest ih =>
    rw [pairs, List.mem_append, ih, List.sublist_cons_iff, List.mem_map, or_comm]
    refine or_congr_right ⟨?_, ?_⟩
    · rintro ⟨y, member, equal⟩
      cases equal
      exact ⟨[b], rfl, List.singleton_sublist.mpr member⟩
    · rintro ⟨_, equal, member⟩
      cases equal
      exact ⟨b, List.singleton_sublist.mp member, rfl⟩

theorem members_of_pairs {xs : List α} {p : α × α} (member : p ∈ pairs xs) : p.1 ∈ xs ∧ p.2 ∈ xs := by
  have sub := mem_pairs.mp member
  exact ⟨sub.subset List.mem_cons_self, sub.subset (List.mem_cons_of_mem _ List.mem_cons_self)⟩

theorem pairs_map (f : α → β) (xs : List α) : pairs (xs.map f) = (pairs xs).map (Prod.map f f) := by
  induction xs with
  | nil => rfl
  | cons x rest ih => simp [pairs, ih, Function.comp_def]

-- What is drawn from the pairs does not depend on the order of the list where it does not on the order of a pair.
theorem filterMap_pairs_perm {f : α × α → Option β} {xs ys : List α} (perm : xs.Perm ys)
    (symmetric : ∀ a ∈ xs, ∀ b ∈ xs, f (a, b) = f (b, a)) :
    ((pairs xs).filterMap f).Perm ((pairs ys).filterMap f) := by
  induction perm with
  | nil => exact .refl _
  | @cons x xs ys perm ih =>
    simp only [pairs, List.filterMap_append]
    refine .append ((perm.map _).filterMap _) (ih fun a one b two => ?_)
    exact symmetric a (List.mem_cons_of_mem _ one) b (List.mem_cons_of_mem _ two)
  | swap x y rest =>
    have same := symmetric x (by simp) y (by simp)
    simp only [pairs, List.map_cons, List.filterMap_append, List.cons_append, List.filterMap_cons, same]
    have others : (List.filterMap f (rest.map (y, ·)) ++ (List.filterMap f (rest.map (x, ·)) ++ List.filterMap f (pairs rest))).Perm
        (List.filterMap f (rest.map (x, ·)) ++ (List.filterMap f (rest.map (y, ·)) ++ List.filterMap f (pairs rest))) := by
      rw [← List.append_assoc, ← List.append_assoc]
      exact .append_right _ List.perm_append_comm
    split
    · exact others
    · exact .cons _ others
  | trans one two ih ih' =>
    exact (ih symmetric).trans (ih' fun a left b right => symmetric a (one.mem_iff.mpr left) b (one.mem_iff.mpr right))

theorem pair_of_members {xs : List α} {a b : α} (one : a ∈ xs) (two : b ∈ xs) (apart : a ≠ b) :
    (a, b) ∈ pairs xs ∨ (b, a) ∈ pairs xs := by
  induction xs with
  | nil => cases one
  | cons x rest ih =>
    simp only [pairs, List.mem_append, List.mem_map, Prod.mk.injEq]
    rcases List.mem_cons.mp one with rfl | one' <;> rcases List.mem_cons.mp two with rfl | two'
    · exact absurd rfl apart
    · exact .inl (.inl ⟨b, two', rfl, rfl⟩)
    · exact .inr (.inl ⟨a, one', rfl, rfl⟩)
    · exact (ih one' two').imp .inr .inr

theorem related_of_forall₂ {r : α → β → Prop} {xs : List α} {ys : List β} (related : List.Forall₂ r xs ys) :
    (∀ x ∈ xs, ∃ y ∈ ys, r x y) ∧ ∀ y ∈ ys, ∃ x ∈ xs, r x y := by
  induction related with
  | nil => exact ⟨List.forall_mem_nil _, List.forall_mem_nil _⟩
  | @cons x y _ _ here _ ih =>
    refine ⟨List.forall_mem_cons.mpr ⟨⟨y, List.mem_cons_self, here⟩, fun a member => ?_⟩,
      List.forall_mem_cons.mpr ⟨⟨x, List.mem_cons_self, here⟩, fun b member => ?_⟩⟩
    · obtain ⟨b, there, holds⟩ := ih.1 a member
      exact ⟨b, List.mem_cons_of_mem _ there, holds⟩
    · obtain ⟨a, there, holds⟩ := ih.2 b member
      exact ⟨a, List.mem_cons_of_mem _ there, holds⟩

theorem takeWhile_eq_filter {r : α → α → Prop} {test : α → Bool} (closed : ∀ a b, r a b → test b = true → test a = true)
    {xs : List α} (sorted : xs.Pairwise r) : xs.takeWhile test = xs.filter test := by
  induction xs with
  | nil => rfl
  | cons x rest ih =>
    obtain ⟨first, later⟩ := List.pairwise_cons.mp sorted
    cases passes : test x with
    | true => rw [List.takeWhile_cons_of_pos passes, List.filter_cons_of_pos passes, ih later]
    | false =>
      have none : rest.filter test = [] := by
        refine List.filter_eq_nil_iff.mpr fun b member passed => ?_
        rw [closed x b (first b member) passed] at passes
        cases passes
      simp [passes, none]

end Pairs

namespace RegBlock

def Meets (a b : RegBlock) : Prop := a.address < b.stop ∧ b.address < a.stop

instance (a b : RegBlock) : Decidable (a.Meets b) := inferInstanceAs (Decidable (_ ∧ _))

theorem meets_comm {a b : RegBlock} : a.Meets b ↔ b.Meets a := and_comm

theorem toNat_stop (b : RegBlock) : b.stop.toNat = min (b.address.toNat + b.size.toNat) (2 ^ 64 - 1) :=
  toNat_stopOf b.address b.size

theorem size_pos {b : RegBlock} (proper : b.size ≠ 0) : 0 < b.size.toNat :=
  Nat.pos_of_ne_zero fun zero => proper (UInt64.toNat_inj.mp zero)

-- Of two blocks in the order of their addresses one comparison says whether they meet.
theorem meets_of_le {a b : RegBlock} (order : a.address ≤ b.address) (proper : b.size ≠ 0) :
    a.Meets b ↔ b.address < a.stop := by
  have positive := size_pos proper
  rw [UInt64.le_iff_toNat_le] at order
  simp only [Meets, UInt64.lt_iff_toNat_lt, toNat_stop]
  omega

def Holds (b : RegBlock) (x : Nat) : Prop := b.address.toNat ≤ x ∧ x < b.address.toNat + b.size.toNat

-- An end that does not fit is moved to the last address, which is then left out.
theorem meets_iff_shared {a b : RegBlock} (proper : a.size ≠ 0) (proper' : b.size ≠ 0) :
    a.Meets b ↔ ∃ x, x + 1 < 2 ^ 64 ∧ a.Holds x ∧ b.Holds x := by
  have positive := size_pos proper
  have positive' := size_pos proper'
  simp only [Meets, Holds, UInt64.lt_iff_toNat_lt, toNat_stop]
  constructor
  · intro meets
    exact ⟨max a.address.toNat b.address.toNat, by omega⟩
  · rintro ⟨x, inside, one, two⟩
    omega

end RegBlock

structure Occupied where
  node : NodeId
  block : RegBlock

def Occupied.extent (o : Occupied) : Extent := ⟨o.block.address, o.block.stop⟩

namespace Tree

-- The blocks that a child can share with a sibling: none if its registers are not known or if it is disabled, and none
-- of no size.
def exposed (t : Tree) (c : NodeId) : List RegBlock :=
  match t.registers c with
  | .ok r => if r.known && !isDisabled (t.node c) then r.blocks.filter (·.size != 0) else []
  | .error _ => []

def occupied (t : Tree) (id : NodeId) : List Occupied :=
  (t.node id).children.flatMap fun c => (t.exposed c).map (⟨c, ·⟩)

def Clash (p : Occupied × Occupied) : Prop := p.1.node ≠ p.2.node ∧ p.1.block.Meets p.2.block

instance : DecidablePred Clash := fun p => inferInstanceAs (Decidable (p.1.node ≠ p.2.node ∧ p.1.block.Meets p.2.block))

def clashes (t : Tree) (id : NodeId) : List (Occupied × Occupied) := (pairs (t.occupied id)).filter Clash

def overlapsIn (found : List Diagnostic) : List Diagnostic := found.filter fun d => d.code = utf8 "reg-overlap"

-- A pair is told at the register property of the later child.
def Tells (t : Tree) (p : Occupied × Occupied) (d : Diagnostic) : Prop :=
  ∃ reg, (t.node p.2.node).property? (utf8 "reg") = some reg ∧
    d = ⟨t.fileOf reg, reg.range, .overlap (t.pathOf p.2.node) p.2.extent (t.pathOf p.1.node) p.1.extent⟩

def met (t : Tree) (p : Placed × Placed) : Option Diagnostic :=
  if p.1.block.Meets p.2.block then t.overlap p.1 p.2 else none

theorem overlaps_sorted (t : Tree) {ps : List Placed} (sorted : ps.Pairwise fun a b => a.block.address ≤ b.block.address)
    (proper : ∀ p ∈ ps, p.block.size ≠ 0) : t.overlaps ps = (pairs ps).filterMap t.met := by
  induction ps with
  | nil => rfl
  | cons a rest ih =>
    obtain ⟨first, later⟩ := List.pairwise_cons.mp sorted
    obtain ⟨-, each⟩ := List.forall_mem_cons.mp proper
    rw [overlaps, pairs, List.filterMap_append, ih later each]
    congr 1
    have closed : ∀ b c : Placed, b.block.address ≤ c.block.address → decide (c.block.address < a.block.stop) = true →
        decide (b.block.address < a.block.stop) = true := by
      intro b c order below
      exact decide_eq_true (UInt64.lt_of_le_of_lt order (of_decide_eq_true below))
    rw [takeWhile_eq_filter closed later, List.filterMap_filter, List.filterMap_map]
    refine List.filterMap_congr fun b member => ?_
    simp only [Function.comp_apply, met, decide_eq_true_eq, RegBlock.meets_of_le (first b member) (each b member)]

def Placed.occupied (p : Placed) : Occupied := ⟨p.node, p.block⟩

def blocksIn : Except Panic (Except Diagnostic (List Placed)) → List Placed
  | .ok (.ok blocks) => blocks
  | _ => []

def unknownIn : Except Panic (Except Diagnostic (List Placed)) → Option Diagnostic
  | .ok (.error d) => some d
  | _ => none

def placedIn (t : Tree) (order : Nat) (c : NodeId) : List Placed := blocksIn (t.placedOf order c)

def placed (t : Tree) (id : NodeId) : List Placed :=
  (t.node id).children.zipIdx.flatMap fun (c, order) => t.placedIn order c

theorem registers_of_silent {t : Tree} {c : NodeId} (silent : (t.node c).property? (utf8 "reg") = none) :
    ∃ r, t.registers c = .ok r ∧ r.blocks = [] := by
  unfold registers
  split
  · exact ⟨_, rfl, rfl⟩
  · split
    · exact ⟨_, rfl, rfl⟩
    · rw [silent]
      exact ⟨_, rfl, rfl⟩

theorem exposed_of_silent {t : Tree} {c : NodeId} (silent : (t.node c).property? (utf8 "reg") = none) :
    t.exposed c = [] := by
  obtain ⟨r, back, none⟩ := registers_of_silent silent
  rw [exposed, back]
  dsimp only
  rw [none, List.filter_nil, ite_self]

theorem placedIn_eq (t : Tree) (order : Nat) (c : NodeId) :
    t.placedIn order c = match (t.node c).property? (utf8 "reg") with
      | none => []
      | some reg => (t.exposed c).map (⟨order, c, reg, ·⟩) := by
  unfold placedIn placedOf exposed blocksIn
  cases (t.node c).property? (utf8 "reg") with
  | none => rfl
  | some reg =>
    cases t.registers c with
    | error _ => rfl
    | ok r =>
      simp only [Except.map]
      cases r.known <;> cases isDisabled (t.node c) <;> rfl

theorem size_of_exposed {t : Tree} {c : NodeId} {b : RegBlock} (there : b ∈ t.exposed c) : b.size ≠ 0 := by
  unfold exposed at there
  split at there
  · split at there
    · simpa using (List.mem_filter.mp there).2
    · cases there
  · cases there

theorem mem_placedIn {t : Tree} {order : Nat} {c : NodeId} {p : Placed} (member : p ∈ t.placedIn order c) :
    p.order = order ∧ p.node = c ∧ (t.node c).property? (utf8 "reg") = some p.reg ∧ p.block.size ≠ 0 := by
  rw [placedIn_eq] at member
  split at member
  · cases member
  · rename_i reg listed
    obtain ⟨block, exposed, rfl⟩ := List.mem_map.mp member
    exact ⟨rfl, rfl, listed, size_of_exposed exposed⟩

theorem occupied_placedIn (t : Tree) (order : Nat) (c : NodeId) :
    (t.placedIn order c).map Placed.occupied = (t.exposed c).map (⟨c, ·⟩) := by
  rw [placedIn_eq]
  split
  · rename_i silent
    rw [exposed_of_silent silent]
    rfl
  · simp [Function.comp_def, Placed.occupied]

theorem occupied_placed (t : Tree) (id : NodeId) : (t.placed id).map Placed.occupied = t.occupied id := by
  have children : (t.node id).children = (t.node id).children.zipIdx.map Prod.fst := (List.zipIdx_map_fst 0 _).symm
  rw [placed, occupied, List.map_flatMap, children, List.flatMap_map, ← children]
  exact List.flatMap_congr fun p _ => occupied_placedIn t p.2 p.1

theorem mem_placed {t : Tree} {id : NodeId} {p : Placed} (member : p ∈ t.placed id) :
    (t.node id).children[p.order]? = some p.node ∧ (t.node p.node).property? (utf8 "reg") = some p.reg ∧
      p.block.size ≠ 0 := by
  obtain ⟨⟨c, order⟩, child, member⟩ := List.mem_flatMap.mp member
  obtain ⟨rfl, rfl, listed, proper⟩ := mem_placedIn member
  exact ⟨List.mem_zipIdx_iff_getElem?.mp child, listed, proper⟩

theorem placed_ordered (t : Tree) (id : NodeId) : (t.placed id).Pairwise (·.order ≤ ·.order) := by
  have numbers : (t.node id).children.zipIdx.Pairwise fun p q => p.2 < q.2 := by
    rw [← List.pairwise_map, List.zipIdx_map_snd]
    exact List.pairwise_lt_range'
  rw [placed, List.pairwise_flatMap]
  refine ⟨fun c _ => ?_, numbers.imp fun below p one q two => ?_⟩
  · exact List.pairwise_of_forall_mem_list fun p one q two =>
      ((mem_placedIn one).1.trans (mem_placedIn two).1.symm).le
  · rw [(mem_placedIn one).1, (mem_placedIn two).1]
    exact below.le

-- Of a pair in the order of the children the second is told, whichever way the sweep meets it.
theorem overlap_comm {t : Tree} {id : NodeId} {p q : Placed} (one : p ∈ t.placed id) (two : q ∈ t.placed id) :
    t.overlap p q = t.overlap q p := by
  by_cases same : p.node = q.node
  · rw [overlap, overlap, if_pos same, if_pos same.symm]
  · have apart : p.order ≠ q.order := by
      intro equal
      have child := (mem_placed one).1
      rw [equal, (mem_placed two).1] at child
      exact same (Option.some.inj child).symm
    rw [overlap, overlap, if_neg same, if_neg (Ne.symm same)]
    rcases Nat.lt_or_gt_of_ne apart with first | second
    · rw [if_neg (Nat.lt_asymm first), if_pos first]
    · rw [if_pos second, if_neg (Nat.lt_asymm second)]

theorem code_of_overlaps {t : Tree} {ps : List Placed} {d : Diagnostic} (told : d ∈ t.overlaps ps) :
    d.code = utf8 "reg-overlap" := by
  induction ps with
  | nil => cases told
  | cons a rest ih =>
    rcases List.mem_append.mp told with here | later
    · obtain ⟨b, -, told⟩ := List.mem_filterMap.mp here
      unfold overlap at told
      split at told
      · cases told
      · cases told
        rfl
    · exact ih later

theorem code_of_unknown {t : Tree} {order : Nat} {c : NodeId} {d : Diagnostic}
    (unknown : t.placedOf order c = .ok (.error d)) : d.code = utf8 "unknown-width" := by
  unfold placedOf at unknown
  split at unknown
  · cases unknown
  · obtain ⟨r, -, told⟩ := Except.map_eq_ok.mp unknown
    split at told
    · cases told
      rfl
    · split at told <;> cases told

def unreadable (t : Tree) (id : NodeId) : List Diagnostic :=
  (t.node id).children.zipIdx.filterMap fun (c, order) => unknownIn (t.placedOf order c)

theorem checkChildren_eq {t : Tree} {id : NodeId} {found : List Diagnostic} (back : t.checkChildren id = .ok found) :
    found =
      t.unreadable id ++ t.overlaps ((t.placed id).mergeSort fun a b => a.block.address ≤ b.block.address) := by
  obtain ⟨read, each, rfl⟩ := Except.map_eq_ok.mp back
  replace each := Except.mapM_eq_ok.mp each
  have unknown : t.unreadable id = (read.map .ok).filterMap unknownIn := by
    rw [← each, List.filterMap_map]
    rfl
  have blocks : t.placed id = (read.map .ok).flatMap blocksIn := by
    rw [← each, List.flatMap_map]
    rfl
  rw [unknown, blocks, List.filterMap_map, List.flatMap_map, reportPlaced]
  congr 1
  · refine List.filterMap_congr fun r _ => ?_
    cases r <;> rfl
  · congr 2
    refine List.flatMap_congr fun r _ => ?_
    cases r <;> rfl

theorem filter_checkChildren {t : Tree} {id : NodeId} {found : List Diagnostic} (back : t.checkChildren id = .ok found) :
    overlapsIn found = t.overlaps ((t.placed id).mergeSort fun a b => a.block.address ≤ b.block.address) := by
  have silent : overlapsIn (t.unreadable id) = [] := by
    refine List.filter_eq_nil_iff.mpr fun d unknown => ?_
    obtain ⟨p, -, told⟩ := List.mem_filterMap.mp unknown
    dsimp only at told
    unfold unknownIn at told
    split at told
    · rename_i equal
      cases told
      rw [code_of_unknown equal]
      decide
    · cases told
  rw [overlapsIn, checkChildren_eq back, List.filter_append, ← overlapsIn, silent, List.nil_append]
  exact List.filter_eq_self.mpr fun d told => decide_eq_true (code_of_overlaps told)

def Placed.both : Placed × Placed → Occupied × Occupied := Prod.map Placed.occupied Placed.occupied

theorem met_of_clash {t : Tree} {id : NodeId} {p : Placed × Placed} (here : p ∈ pairs (t.placed id))
    (clash : Clash (Placed.both p)) : ∃ d, t.met p = some d ∧ t.Tells (Placed.both p) d := by
  obtain ⟨apart, meets⟩ : p.1.node ≠ p.2.node ∧ p.1.block.Meets p.2.block := clash
  have ordered : p.1.order ≤ p.2.order := List.pairwise_iff_forall_sublist.mp (t.placed_ordered id) (mem_pairs.mp here)
  refine ⟨_, ?_, p.2.reg, (mem_placed (members_of_pairs here).2).2.1, rfl⟩
  rw [met, if_pos meets, overlap, if_neg apart, if_neg (Nat.not_lt.mpr ordered)]
  rfl

theorem met_of_not_clash {t : Tree} {p : Placed × Placed} (clear : ¬ Clash (Placed.both p)) : t.met p = none := by
  by_cases meets : p.1.block.Meets p.2.block
  · have same : p.1.node = p.2.node := by_contra fun apart => clear ⟨apart, meets⟩
    rw [met, if_pos meets, overlap, if_pos same]
  · rw [met, if_neg meets]

theorem tells_met {t : Tree} {id : NodeId} {ps : List (Placed × Placed)} (each : ∀ p ∈ ps, p ∈ pairs (t.placed id)) :
    List.Forall₂ t.Tells ((ps.map Placed.both).filter Clash) (ps.filterMap t.met) := by
  induction ps with
  | nil => exact .nil
  | cons p rest ih =>
    obtain ⟨here, later⟩ := List.forall_mem_cons.mp each
    rw [List.map_cons]
    by_cases clash : Clash (Placed.both p)
    · obtain ⟨d, met, tells⟩ := met_of_clash here clash
      rw [List.filter_cons_of_pos (by simpa using clash), List.filterMap_cons_some met]
      exact .cons tells (ih later)
    · rw [List.filter_cons_of_neg (by simpa using clash), List.filterMap_cons_none (met_of_not_clash clash)]
      exact ih later

theorem checkChildren_tells {t : Tree} {id : NodeId} {found : List Diagnostic} (back : t.checkChildren id = .ok found) :
    ∃ told, List.Forall₂ t.Tells (t.clashes id) told ∧ told.Perm (overlapsIn found) := by
  refine ⟨(pairs (t.placed id)).filterMap t.met, ?_, ?_⟩
  · rw [clashes, ← occupied_placed, pairs_map]
    exact tells_met fun p member => member
  · have perm := List.mergeSort_perm (t.placed id) fun a b => a.block.address ≤ b.block.address
    rw [filter_checkChildren back, overlaps_sorted t (mergeSort_ordered (fun p : Placed => p.block.address) _)
      fun p member => (mem_placed (perm.mem_iff.mp member)).2.2]
    refine (filterMap_pairs_perm perm fun a one b two => ?_).symm
    simp only [met, RegBlock.meets_comm (a := a.block), overlap_comm (perm.mem_iff.mp one) (perm.mem_iff.mp two)]

-- Blocks of different children stand in the order of the children.
theorem clash_ordered {t : Tree} {id : NodeId} {p : Occupied × Occupied} (clash : p ∈ t.clashes id) :
    [p.1.node, p.2.node].Sublist (t.node id).children := by
  obtain ⟨member, differs⟩ := List.mem_filter.mp clash
  obtain ⟨apart, -⟩ := of_decide_eq_true differs
  rw [← occupied_placed, pairs_map] at member
  obtain ⟨⟨a, b⟩, here, rfl⟩ := List.mem_map.mp member
  obtain ⟨left, right⟩ := members_of_pairs here
  have first := (mem_placed left).1
  have second := (mem_placed right).1
  have ordered : a.order ≤ b.order := List.pairwise_iff_forall_sublist.mp (t.placed_ordered id) (mem_pairs.mp here)
  have before : a.order < b.order := by
    refine Nat.lt_of_le_of_ne ordered fun equal => apart (Option.some.inj (first.symm.trans ?_))
    rw [show a.order = b.order from equal]
    exact second
  rw [← List.take_append_drop (a.order + 1) (t.node id).children]
  refine .append (List.singleton_sublist.mpr (List.mem_of_getElem? (i := a.order) ?_))
    (List.singleton_sublist.mpr (List.mem_of_getElem? (i := b.order - (a.order + 1)) ?_))
  · rw [List.getElem?_take_of_lt (Nat.lt_succ_self _)]
    exact first
  · rw [List.getElem?_drop, Nat.add_sub_cancel' before]
    exact second

theorem placedOf_stops {t : Tree} {order : Nat} {c : NodeId} :
    (∃ p, t.placedOf order c = .error p) ↔ ∃ p, t.registers c = .error p := by
  unfold placedOf
  split
  · rename_i silent
    obtain ⟨r, back, -⟩ := registers_of_silent silent
    simp [back]
  · cases t.registers c <;> simp [Except.map]

theorem checkChildren_stops {t : Tree} {id : NodeId} :
    (∃ p, t.checkChildren id = .error p) ↔ ∃ c ∈ (t.node id).children, ∃ p, t.registers c = .error p := by
  rw [checkChildren, Except.map_stops, Except.mapM_stops]
  constructor
  · rintro ⟨⟨c, order⟩, member, stops⟩
    exact ⟨c, List.mem_of_getElem? (List.mem_zipIdx_iff_getElem?.mp member), placedOf_stops.mp stops⟩
  · rintro ⟨c, child, stops⟩
    obtain ⟨order, place⟩ := List.mem_iff_getElem?.mp child
    exact ⟨(c, order), List.mem_zipIdx_iff_getElem?.mpr place, placedOf_stops.mpr stops⟩

def checkedBelow (t : Tree) (id : NodeId) : List Diagnostic :=
  match t.checkChildren id with
  | .ok found => found
  | .error _ => []

theorem checkRegisters_stops {t : Tree} : (∃ p, t.checkRegisters = .error p) ↔
    ∃ id ∈ t.nodes, ∃ c ∈ (t.node id).children, ∃ p, t.registers c = .error p := by
  rw [checkRegisters, Except.map_stops, Except.mapM_stops]
  exact exists_congr fun id => and_congr_right fun _ => checkChildren_stops

theorem checkRegisters_tells {t : Tree} {found : List Diagnostic} (back : t.checkRegisters = .ok found) :
    overlapsIn found = t.nodes.flatMap (fun id => overlapsIn (t.checkedBelow id)) ∧
      ∀ id ∈ t.nodes, t.checkChildren id = .ok (t.checkedBelow id) ∧
        ∃ told, List.Forall₂ t.Tells (t.clashes id) told ∧ told.Perm (overlapsIn (t.checkedBelow id)) := by
  obtain ⟨parts, each, rfl⟩ := Except.map_eq_ok.mp back
  replace each := Except.mapM_eq_ok.mp each
  have back : ∀ id ∈ t.nodes, t.checkChildren id = .ok (t.checkedBelow id) := by
    intro id visited
    obtain ⟨part, -, here⟩ := List.mem_map.mp (each ▸ List.mem_map_of_mem visited)
    rw [checkedBelow, ← here]
  have whole : t.nodes.map t.checkedBelow = parts := by
    have same : t.nodes.map (Except.ok ∘ t.checkedBelow) = parts.map .ok := each ▸ (List.map_congr_left back).symm
    exact List.map_injective_iff.mpr (fun _ _ => Except.ok.inj) (List.map_map.trans same)
  refine ⟨?_, fun id visited => ⟨back id visited, checkChildren_tells (back id visited)⟩⟩
  rw [← whole, ← List.flatMap_def]
  exact List.filter_flatMap

-- The check comes to no end exactly if the register list of some child is left. Otherwise every clash below every node
-- is told once, where the register property of the later child stands, and no other overlap is told.
theorem checkRegisters_overlaps (t : Tree) :
    ((∃ p, t.checkRegisters = .error p) ↔
      ∃ id ∈ t.nodes, ∃ c ∈ (t.node id).children, ∃ p, t.registers c = .error p) ∧
    ∀ found, t.checkRegisters = .ok found →
      overlapsIn found = t.nodes.flatMap (fun id => overlapsIn (t.checkedBelow id)) ∧
      ∀ id ∈ t.nodes, t.checkChildren id = .ok (t.checkedBelow id) ∧
        (∃ told, List.Forall₂ t.Tells (t.clashes id) told ∧ told.Perm (overlapsIn (t.checkedBelow id))) ∧
        ∀ p ∈ t.clashes id, [p.1.node, p.2.node].Sublist (t.node id).children := by
  refine ⟨checkRegisters_stops, fun found back => ?_⟩
  obtain ⟨whole, below⟩ := checkRegisters_tells back
  exact ⟨whole, fun id visited => ⟨(below id visited).1, (below id visited).2, fun _ => clash_ordered⟩⟩

def crowdedFile : File :=
  let blocks := "#address-cells = <1>; a \x7b reg = <0 0x20>; \x7d; b \x7b reg = <0x10 0x20>; \x7d; "
  let widths := "#address-cells = <0x7fffffffffffffff>; #size-cells = <0x7fffffffffffffff>;"
  .ofText (.ofTable []) [] (utf8 "/a.dts")
    (utf8 ("/ \x7b " ++ blocks ++ "c \x7b " ++ widths ++ " n \x7b reg = <1 2>; \x7d; \x7d; \x7d;"))

def crowded : Tree := merge [] [utf8 "/a.dts"] [crowdedFile] none

theorem crowded_unchecked : 0 ∈ crowded.nodes ∧ (crowded.clashes 0).map (fun p => (p.1.node, p.2.node)) = [(1, 2)] ∧
    crowded.checkRegisters = .error (.pastEnd 0x7fffffffffffffff 2) := by
  decide +kernel

def TellsOverlap (t : Tree) (found : List Diagnostic) (o q : Occupied) : Prop :=
  ∃ d ∈ found, t.Tells (o, q) d ∨ t.Tells (q, o) d

theorem code_of_tells {t : Tree} {p : Occupied × Occupied} {d : Diagnostic} (tells : t.Tells p d) :
    d.code = utf8 "reg-overlap" := by
  obtain ⟨reg, -, rfl⟩ := tells
  rfl

-- What is told gives both ranges, so pairs that are told alike meet alike.
theorem meets_of_tells {t : Tree} {p q : Occupied × Occupied} {d : Diagnostic} (one : t.Tells p d) (two : t.Tells q d)
    (meets : p.1.block.Meets p.2.block) : q.1.block.Meets q.2.block := by
  obtain ⟨reg, -, rfl⟩ := one
  obtain ⟨reg', -, equal⟩ := two
  simp only [Diagnostic.mk.injEq, Finding.overlap.injEq, Occupied.extent, Extent.mk.injEq] at equal
  obtain ⟨-, -, -, ⟨first, first'⟩, -, second, second'⟩ := equal
  exact ⟨by rw [← second, ← first']; exact meets.1, by rw [← first, ← second']; exact meets.2⟩

theorem mem_occupied {t : Tree} {id c : NodeId} {a : RegBlock} (child : c ∈ (t.node id).children) (there : a ∈ t.exposed c) :
    ⟨c, a⟩ ∈ t.occupied id :=
  List.mem_flatMap.mpr ⟨c, child, List.mem_map.mpr ⟨a, there, rfl⟩⟩

section Siblings

variable {t : Tree} {found : List Diagnostic} (back : t.checkRegisters = .ok found) {id c d : NodeId}
  (visited : id ∈ t.nodes) (child : c ∈ (t.node id).children)
  (child' : d ∈ (t.node id).children) (apart : c ≠ d) {a b : RegBlock} (there : a ∈ t.exposed c) (there' : b ∈ t.exposed d)
include back visited child child' apart there there'

theorem tellsOverlap_iff_meets : t.TellsOverlap found ⟨c, a⟩ ⟨d, b⟩ ↔ a.Meets b := by
  obtain ⟨whole, below⟩ := checkRegisters_tells back
  constructor
  · rintro ⟨finding, told, tells⟩
    have code : finding.code = utf8 "reg-overlap" := tells.elim code_of_tells code_of_tells
    have overlap : finding ∈ overlapsIn found := List.mem_filter.mpr ⟨told, decide_eq_true code⟩
    obtain ⟨n, walked, told⟩ := List.mem_flatMap.mp (whole ▸ overlap)
    obtain ⟨-, listed, related, perm⟩ := below n walked
    have member : finding ∈ listed := perm.mem_iff.mpr told
    obtain ⟨p, clash, same⟩ := (related_of_forall₂ related).2 finding member
    obtain ⟨-, meets⟩ := of_decide_eq_true (List.mem_filter.mp clash).2
    exact tells.elim (fun tells => meets_of_tells same tells meets)
      fun tells => RegBlock.meets_comm.mp (meets_of_tells same tells meets)
  · intro meets
    have told : ∀ p : Occupied × Occupied, p ∈ pairs (t.occupied id) → Clash p → ∃ d ∈ found, t.Tells p d := by
      intro p member clash
      obtain ⟨-, listed, related, perm⟩ := below id visited
      obtain ⟨d, there, tells⟩ := (related_of_forall₂ related).1 p (List.mem_filter.mpr ⟨member, decide_eq_true clash⟩)
      have overlap : d ∈ overlapsIn found := whole ▸ List.mem_flatMap.mpr ⟨id, visited, perm.mem_iff.mp there⟩
      exact ⟨d, (List.mem_filter.mp overlap).1, tells⟩
    have differ : (⟨c, a⟩ : Occupied) ≠ ⟨d, b⟩ := fun equal => apart (Occupied.mk.inj equal).1
    rcases pair_of_members (mem_occupied child there) (mem_occupied child' there') differ with first | second
    · obtain ⟨d, member, tells⟩ := told _ first ⟨apart, meets⟩
      exact ⟨d, member, .inl tells⟩
    · obtain ⟨d, member, tells⟩ := told _ second ⟨apart.symm, RegBlock.meets_comm.mp meets⟩
      exact ⟨d, member, .inr tells⟩

-- An overlap is told exactly if the blocks share an address other than the last of the address space. So the last one
-- alone is missed: where both blocks reach it and one begins there.
theorem tellsOverlap_iff_shared :
    (t.TellsOverlap found ⟨c, a⟩ ⟨d, b⟩ ↔ ∃ x, x + 1 < 2 ^ 64 ∧ a.Holds x ∧ b.Holds x) ∧
      ((t.TellsOverlap found ⟨c, a⟩ ⟨d, b⟩ ↔ ∃ x < 2 ^ 64, a.Holds x ∧ b.Holds x) ↔
        ¬ (a.Holds (2 ^ 64 - 1) ∧ b.Holds (2 ^ 64 - 1) ∧
          (a.address.toNat = 2 ^ 64 - 1 ∨ b.address.toNat = 2 ^ 64 - 1))) := by
  rw [tellsOverlap_iff_meets back visited child child' apart there there',
    RegBlock.meets_iff_shared (size_of_exposed there) (size_of_exposed there')]
  refine ⟨Iff.rfl, ?_, ?_⟩
  · rintro same ⟨one, two, begins⟩
    obtain ⟨x, below, first, second⟩ := same.mpr ⟨_, by omega, one, two⟩
    unfold RegBlock.Holds at first second
    omega
  · intro clear
    refine ⟨fun ⟨x, below, shared⟩ => ⟨x, by omega, shared⟩, fun ⟨x, below, one, two⟩ => ?_⟩
    refine ⟨max a.address.toNat b.address.toNat, ?_⟩
    unfold RegBlock.Holds at *
    omega

end Siblings

def topFile : File :=
  let first := "a \x7b reg = <0xffffffff 0xffffff00 0x100>; \x7d; "
  let rest := "b \x7b reg = <0xffffffff 0xffffff80 0x10>; \x7d; c \x7b reg = <0xffffffff 0xffffffff 1>; \x7d;"
  .ofText (.ofTable []) [] (utf8 "/a.dts") (utf8 ("/ \x7b " ++ first ++ rest ++ " \x7d;"))

def top : Tree := merge [] [utf8 "/a.dts"] [topFile] none

def places (bs : List RegBlock) : List (Nat × Nat) := bs.map fun b => (b.address.toNat, b.size.toNat)

theorem exists_of_places {bs : List RegBlock} {address size : Nat} (only : places bs = [(address, size)]) :
    ∃ b ∈ bs, b.address.toNat = address ∧ b.size.toNat = size := by
  have member : (address, size) ∈ places bs := only ▸ List.mem_singleton_self _
  obtain ⟨b, there, equal⟩ := List.mem_map.mp member
  exact ⟨b, there, Prod.mk.inj equal⟩

theorem top_read : top.nodes = [0, 1, 2, 3] ∧ (top.node 0).children = [1, 2, 3] ∧
    places (top.exposed 1) = [(2 ^ 64 - 0x100, 0x100)] ∧ places (top.exposed 2) = [(2 ^ 64 - 0x80, 0x10)] ∧
      places (top.exposed 3) = [(2 ^ 64 - 1, 1)] ∧
      (top.nodes.all fun id => (top.node id).children.all fun c => (top.registers c).isOk) = true := by
  decide +kernel

theorem top_checked : ∃ found, top.checkRegisters = .ok found := by
  cases back : top.checkRegisters with
  | ok found => exact ⟨found, rfl⟩
  | error p =>
    obtain ⟨id, visited, c, child, p, left⟩ := checkRegisters_stops.mp ⟨p, back⟩
    have returns := List.all_eq_true.mp (List.all_eq_true.mp top_read.2.2.2.2.2 id visited) c child
    rw [left] at returns
    cases returns

theorem top_told : ∃ found, top.checkRegisters = .ok found ∧
    overlapsIn found = top.nodes.flatMap fun id => overlapsIn (top.checkedBelow id) := by
  obtain ⟨found, back⟩ := top_checked
  exact ⟨found, back, ((checkRegisters_overlaps top).2 found back).1⟩

theorem top_overlap_told : ∃ found, top.checkRegisters = .ok found ∧ 0 ∈ top.nodes ∧ 1 ∈ (top.node 0).children ∧
    2 ∈ (top.node 0).children ∧ ∃ a ∈ top.exposed 1, ∃ b ∈ top.exposed 2, a.address.toNat + a.size.toNat = 2 ^ 64 ∧
      top.TellsOverlap found ⟨1, a⟩ ⟨2, b⟩ := by
  obtain ⟨nodes, children, one, two, -⟩ := top_read
  obtain ⟨found, back⟩ := top_checked
  obtain ⟨a, there, start, size⟩ := exists_of_places one
  obtain ⟨b, there', start', size'⟩ := exists_of_places two
  have visited : 0 ∈ top.nodes := by simp [nodes]
  have child : 1 ∈ (top.node 0).children := by simp [children]
  have child' : 2 ∈ (top.node 0).children := by simp [children]
  refine ⟨found, back, visited, child, child', a, there, b, there', by omega, ?_⟩
  refine (tellsOverlap_iff_shared back visited child child' (by decide) there there').1.mpr ⟨2 ^ 64 - 0x80, ?_⟩
  unfold RegBlock.Holds
  omega

-- The last address is in both ranges, and nothing is told.
theorem top_last_untold : ¬ ∀ (t : Tree) (found : List Diagnostic) (id c d : NodeId) (a b : RegBlock),
    t.checkRegisters = .ok found → id ∈ t.nodes → c ∈ (t.node id).children → d ∈ (t.node id).children → c ≠ d →
    a ∈ t.exposed c → b ∈ t.exposed d → a.address.toNat + a.size.toNat ≤ 2 ^ 64 →
    b.address.toNat + b.size.toNat ≤ 2 ^ 64 →
    (t.TellsOverlap found ⟨c, a⟩ ⟨d, b⟩ ↔ ∃ x < 2 ^ 64, a.Holds x ∧ b.Holds x) := by
  intro law
  obtain ⟨nodes, children, one, -, three, -⟩ := top_read
  obtain ⟨found, back⟩ := top_checked
  obtain ⟨a, there, start, size⟩ := exists_of_places one
  obtain ⟨b, there', start', size'⟩ := exists_of_places three
  have visited : 0 ∈ top.nodes := by simp [nodes]
  have child : 1 ∈ (top.node 0).children := by simp [children]
  have child' : 3 ∈ (top.node 0).children := by simp [children]
  have told := (law top found 0 1 3 a b back visited child child' (by decide) there there' (by omega) (by omega)).mpr
    ⟨2 ^ 64 - 1, by omega, by unfold RegBlock.Holds; omega⟩
  rw [tellsOverlap_iff_meets back visited child child' (by decide) there there'] at told
  have meets := told.2
  rw [UInt64.lt_iff_toNat_lt, RegBlock.toNat_stop] at meets
  omega

end Tree

end DeviceTree
