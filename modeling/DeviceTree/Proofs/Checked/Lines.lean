import DeviceTree.Proofs.Checked.Scanner
import Mathlib.Data.List.DropRight

namespace DeviceTree

namespace Position

def counted (source : Bytes) (offset : Nat) : Position :=
  ⟨1 + (source.take offset).count 0x0a, 1 + ((source.take offset).rtakeWhile (· != 0x0a)).length⟩

theorem column_after (text : Bytes) : (first.after text).column = 1 + (text.rtakeWhile (· != 0x0a)).length := by
  induction text using List.reverseRecOn with
  | nil => rfl
  | append_singleton text b ih =>
    rw [after_append, List.rtakeWhile_concat]
    change ((first.after text).step b).column = _
    by_cases feed : b = 0x0a
    · simp [step, feed]
    · simp [step, feed, ih]
      omega

theorem ofOffset_counted (source : Bytes) (offset : Nat) : ofOffset source offset = counted source offset :=
  Position.ext (line_after .first _) (column_after _)

theorem starts_sorted (base : Nat) (text : Bytes) : (lineStarts.go base text).Pairwise (· < ·) := by
  induction text generalizing base with
  | nil => exact List.pairwise_singleton ..
  | cons b rest ih =>
    have sorted := ih (base + 1)
    obtain ⟨later, equal, beyond⟩ := starts_later base (b :: rest)
    rw [equal]
    refine List.pairwise_cons.mpr ⟨beyond, ?_⟩
    rw [lineStarts.go] at equal
    split at equal
    · exact (List.cons.inj equal).2 ▸ sorted
    · obtain ⟨same, next, -⟩ := starts_later (base + 1) rest
      rw [next] at equal sorted
      exact (List.cons.inj equal).2 ▸ sorted.of_cons

theorem ofOffset_lt {source : Bytes} {offset later : Nat} (less : offset < later) (inside : later ≤ source.length) :
    ofOffset source offset < ofOffset source later := by
  obtain ⟨n, rfl⟩ := Nat.exists_eq_add_of_le less.le
  rw [ofOffset_add]
  refine lt_after _ fun none => ?_
  have size := congrArg List.length none
  rw [List.length_take, List.length_drop, List.length_nil] at size
  omega

theorem ofOffset_lt_iff {source : Bytes} {offset other : Nat} (inside : offset ≤ source.length)
    (inside' : other ≤ source.length) : ofOffset source offset < ofOffset source other ↔ offset < other := by
  refine ⟨fun before => ?_, fun less => ofOffset_lt less inside'⟩
  by_contra behind
  rcases Nat.eq_or_lt_of_le (Nat.not_lt.mp behind) with rfl | less
  · exact lt_irrefl _ before
  · exact lt_asymm before (ofOffset_lt less inside)

end Position

namespace Checked

def fill (source : Bytes) (offset : Nat) (starts : List Nat) : Except Fault (List Nat) :=
  if offset < source.length then do
    let b ← byteAt source offset
    fill source (offset + 1) (if b = 0x0a then starts ++ [offset + 1] else starts)
  else return starts
termination_by source.length - offset

def lines (source : Bytes) : Except Fault (List Nat) := fill source 0 [0]

-- The first place between two that passes a test, if every place behind one that passes does so too.
def search (test : Nat → Except Fault Bool) (low high : Nat) : Except Fault Nat :=
  if low < high then do
    let passed ← test ((low + high) / 2)
    if passed then search test low ((low + high) / 2) else search test ((low + high) / 2 + 1) high
  else return low
termination_by high - low

def entry (starts : List Nat) (line : Nat) : Except Fault Nat :=
  match starts[line]? with
  | some start => .ok start
  | none => .error .outside

def beginsBehind (starts : List Nat) (offset line : Nat) : Except Fault Bool := do
  let start ← entry starts line
  return decide (offset < start)

def locate (source : Bytes) (offset : Nat) : Except Fault Position := do
  let starts ← lines source
  match ← search (beginsBehind starts offset) 0 starts.length with
  | 0 => throw .outside
  | line + 1 => do
    let start ← entry starts line
    return ⟨line + 1, offset - start + 1⟩

theorem fill_ok (source : Bytes) (offset : Nat) (starts : List Nat) :
    fill source offset starts = .ok (starts ++ (Position.lineStarts.go offset (source.drop offset)).tail) := by
  induction whole : source.drop offset generalizing offset starts with
  | nil =>
    rw [fill, if_neg (ends_of_drop whole), Position.lineStarts.go, List.tail_cons, List.append_nil]
    rfl
  | cons b rest ih =>
    obtain ⟨inside, found, behind⟩ := byte_of_drop whole
    rw [fill, if_pos inside, found]
    change fill source (offset + 1) (if b = 0x0a then starts ++ [offset + 1] else starts) = _
    rw [ih _ _ behind, Position.lineStarts.go]
    obtain ⟨later, equal, -⟩ := Position.starts_later (offset + 1) rest
    rw [equal]
    split
    · rw [List.tail_cons, List.tail_cons, List.append_assoc]
      rfl
    · rfl

theorem lines_ok (source : Bytes) : lines source = .ok (Position.lineStarts source) := by
  obtain ⟨later, equal, -⟩ := Position.starts_later 0 source
  rw [lines, fill_ok, List.drop_zero, equal, Position.lineStarts, equal]
  rfl

-- The place searched for stays between the two ends.
theorem search_ok {test : Nat → Except Fault Bool} {low high place : Nat} (low_le : low ≤ place) (le_high : place ≤ high)
    (tells : ∀ i < high, test i = .ok (decide (place ≤ i))) : search test low high = .ok place := by
  fun_induction search test low high with
  | case1 low high more lower upper =>
    rw [tells _ (by omega)]
    change (if decide (place ≤ (low + high) / 2) = true then search test low ((low + high) / 2)
      else search test ((low + high) / 2 + 1) high) = _
    split
    · rename_i passed
      exact lower low_le (of_decide_eq_true passed) fun i less => tells i (by omega)
    · rename_i failed
      have behind : ¬ place ≤ (low + high) / 2 := fun passed => failed (decide_eq_true passed)
      exact upper (by omega) le_high tells
  | case2 low high done =>
    rw [Nat.le_antisymm low_le (le_high.trans (Nat.not_lt.mp done))]
    rfl

theorem beginsBehind_ok {starts : List Nat} (sorted : starts.Pairwise (· < ·)) (offset : Nat) {line : Nat}
    (known : line < starts.length) : beginsBehind starts offset line =
      .ok (decide (starts.findIdx (fun start => decide (offset < start)) ≤ line)) := by
  have same : offset < starts[line] ↔ starts.findIdx (fun start => decide (offset < start)) ≤ line := by
    constructor
    · intro behind
      by_contra passed
      have none := List.not_of_lt_findIdx (Nat.not_le.mp passed)
      exact absurd behind (by simpa using none)
    · intro found
      have first := List.findIdx_getElem (w := found.trans_lt known)
      rcases Nat.eq_or_lt_of_le found with equal | further
      · simpa [equal] using first
      · exact (of_decide_eq_true first).trans (List.pairwise_iff_getElem.mp sorted _ _ _ known further)
  rw [beginsBehind, entry, List.getElem?_eq_getElem known]
  change Except.ok (decide (offset < starts[line])) = _
  rw [decide_eq_decide.mpr same]

-- Searching by halves finds the line that a look at one line after another finds.
theorem locate_positionAt (source : Bytes) (offset : Nat) : locate source offset = positionAt source offset := by
  have sorted : (Position.lineStarts source).Pairwise (· < ·) := Position.starts_sorted 0 source
  have found := search_ok (Nat.zero_le _) List.findIdx_le_length fun line known => beginsBehind_ok sorted offset known
  rw [locate, lines_ok]
  change (search _ 0 (Position.lineStarts source).length).bind _ = _
  rw [found, positionAt]
  rfl

-- Each offset up to the end of a source has a position of its own, which leads back to it.
theorem locate_invertible {source : Bytes} {offset : Nat} (inside : offset ≤ source.length) :
    locate source offset = .ok (.counted source offset) ∧
    ((Cursor.ofSource source).advance offset).position = .counted source offset ∧
    (locate source offset >>= offsetOf source) = .ok offset ∧
    (Position.counted source offset).toOffset source = some offset ∧
    ∀ other ≤ source.length,
      (Position.counted source offset).before (.counted source other) = true ↔ offset < other := by
  have found : locate source offset = .ok (.ofOffset source offset) :=
    (locate_positionAt source offset).trans (positionAt_ok inside)
  rw [← Position.ofOffset_counted]
  refine ⟨found, ?_, ?_, Position.toOffset_ofOffset inside, fun other inside' => ?_⟩
  · rw [← Cursor.ofOffset_start, Cursor.advance_ofOffset, Nat.zero_add]
    rfl
  · rw [found]
    exact offsetOf_ok inside
  · rw [← Position.ofOffset_counted, Position.before_iff]
    exact Position.ofOffset_lt_iff inside inside'

theorem blank_line_invertible : 2 ≤ (utf8 "a\n\nb").length ∧ locate (utf8 "a\n\nb") 2 = .ok ⟨2, 1⟩ ∧
    (locate (utf8 "a\n\nb") 2 >>= offsetOf (utf8 "a\n\nb")) = .ok 2 ∧
    Position.before ⟨2, 1⟩ (.counted (utf8 "a\n\nb") 4) = true := by
  have inside : 2 ≤ (utf8 "a\n\nb").length := by decide
  have place : Position.counted (utf8 "a\n\nb") 2 = ⟨2, 1⟩ := by decide
  obtain ⟨found, -, back, -, grows⟩ := locate_invertible inside
  rw [place] at found grows
  exact ⟨inside, found, back, (grows 4 (by decide)).mpr (by decide)⟩

end Checked
end DeviceTree
