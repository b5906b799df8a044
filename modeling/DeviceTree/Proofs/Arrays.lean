import DeviceTree.Proofs.Reading

namespace DeviceTree
open Lexer

-- The cells that come back: a value of any size, or a reference that a source can name.
def Cell.Printable : Cell → Prop
  | .int _ _ value => value.isSome
  | .ref ⟨_, .label l⟩ => IsLabelRef l
  | .ref ⟨_, .path p⟩ => p ≠ [] ∧ IsPath p

inductive Cell.Returns (width : Width) : Cell → Cell → Prop where
  | int {range raw range' raw'} (v : Int64) :
      Returns width (.int range raw (some v)) (.int range' raw' (some (Int64.ofInt (v.toInt % 2 ^ width.bits))))
  | ref {r r' : Ref} (same : r'.target = r.target) : Returns width (.ref r) (.ref r')

theorem Cell.Printable.plain {c : Cell} (printable : c.Printable) (width : Width) : (c.view width).Plain := by
  rcases c with ⟨range, raw, _ | v⟩ | ⟨range, l | p⟩
  · cases printable
  · trivial
  · intro lone
    cases lone
    exact printable.1 rfl
  · nofun

theorem Cell.Printable.spelled {c : Cell} (printable : c.Printable) (width : Width) : (c.view width).Spelled .w64 := by
  rcases c with ⟨range, raw, _ | v⟩ | ⟨range, l | p⟩
  · cases printable
  · have wide : 2 ^ width.bits ≤ 2 ^ 64 := by cases width <;> decide
    exact Nat.lt_of_lt_of_le (Nat.mod_lt _ (Nat.two_pow_pos _)) wide
  · exact .inr printable
  · exact printable

theorem reduced_eq {v w : Int64} {width : Width} (same : w.toUInt64.toNat % 2 ^ 64 = v.toUInt64.toNat % 2 ^ width.bits) :
    w = Int64.ofInt (v.toInt % 2 ^ width.bits) := by
  have low : w.toBitVec.toNat % 2 ^ 64 = v.toBitVec.toNat % 2 ^ width.bits := same
  have small := w.toBitVec.isLt
  have value := BitVec.toInt_eq_toNat_cond v.toBitVec
  refine Int64.toBitVec_inj.mp (BitVec.eq_of_toNat_eq ?_)
  change _ = (BitVec.ofInt 64 (v.toBitVec.toInt % 2 ^ width.bits)).toNat
  rw [BitVec.toNat_ofInt, value]
  generalize v.toBitVec.toNat = n at low
  cases width <;> simp only [Width.bits] at low ⊢ <;> split <;> omega

theorem Cell.Printable.returns {c d : Cell} {width : Width} (printable : c.Printable) (same : d.view .w64 = c.view width) :
    c.Returns width d := by
  rcases c with ⟨range, raw, _ | v⟩ | r
  · cases printable
  · rcases d with ⟨range', raw', _ | w⟩ | r'
    · cases same
    · rw [reduced_eq (CellView.word.inj same)]
      exact .int v
    · cases same
  · rcases d with ⟨range', raw', _ | w⟩ | r'
    · cases same
    · cases same
    · exact .ref (CellView.ref.inj same)

-- Wherever the text of an array is read as a value, all of it is taken, without an error, and every cell comes back.
theorem Parser.value_array {a : CellArray} (printable : ∀ c ∈ a.cells, c.Printable) {s : State} {tail : Bytes}
    (stands : s.cursor.rest = Printer.value .evaluated (.array a) ++ tail) :
    ∃ b, (value s).1 = some (.array b) ∧ b.width = a.width ∧ List.Forall₂ (Cell.Returns a.width) a.cells b.cells ∧
      (value s).2.cursor.rest = tail ∧ (value s).2.errors = s.errors := by
  have spelled : ∀ c ∈ a.cells.map (Cell.view a.width), c.Spelled .w64 :=
    List.forall_mem_map.mpr fun c member => (printable c member).spelled a.width
  have plain : ∀ c ∈ a.cells.map (Cell.view a.width), c.Plain :=
    List.forall_mem_map.mpr fun c member => (printable c member).plain a.width
  have facing : s.cursor.Facing s.cursor.fresh
      ((ValueView.array a.width (a.cells.map (Cell.view a.width))).text ++ tail) := by
    rw [value_text] at stands
    exact ⟨[], by simp, stands, rfl⟩
  rcases array_value spelled facing with ⟨-, same, ⟨b, found, width, views⟩, left⟩ | ⟨flawed, -⟩
  · refine ⟨b, found, width, ?_, left.1, same⟩
    have pairs : List.Forall₂ (fun c d => d.view .w64 = c.view a.width) a.cells b.cells := by
      rw [← List.forall₂_eq_eq_eq, List.forall₂_map_left_iff, List.forall₂_map_right_iff] at views
      exact views.flip
    exact ((List.forall₂_and_left _ _).mpr ⟨printable, pairs⟩).imp fun _ _ both => both.1.returns both.2
  · exact absurd plain flawed

def mixedArray : CellArray := ⟨.zero, .w8, [.int .zero [] (some (-1)), .ref ⟨.zero, .label (utf8 "l")⟩,
  .ref ⟨.zero, .path (utf8 "/p")⟩]⟩

theorem Parser.value_mixedArray : (∀ c ∈ mixedArray.cells, c.Printable) ∧
    (State.start (utf8 "/bits/ 8 <0xff &l &\x7b/p\x7d>;")).cursor.rest =
      Printer.value .evaluated (.array mixedArray) ++ utf8 ";" ∧
    ∃ b, (value (.start (utf8 "/bits/ 8 <0xff &l &\x7b/p\x7d>;"))).1 = some (.array b) ∧ b.width = .w8 ∧
      List.Forall₂ (Cell.Returns .w8) mixedArray.cells b.cells ∧
      (value (.start (utf8 "/bits/ 8 <0xff &l &\x7b/p\x7d>;"))).2.cursor.rest = utf8 ";" ∧
      (value (.start (utf8 "/bits/ 8 <0xff &l &\x7b/p\x7d>;"))).2.errors = [] := by
  have printable : ∀ c ∈ mixedArray.cells, c.Printable := by
    have path : ∀ b ∈ utf8 "/p", b ≠ 0x7d ∧ b ≠ 0x0a := by decide +kernel
    simp only [mixedArray, List.forall_mem_cons]
    exact ⟨rfl, ⟨by decide, by decide +kernel⟩, ⟨by decide, path⟩, nofun⟩
  have text : (State.start (utf8 "/bits/ 8 <0xff &l &\x7b/p\x7d>;")).cursor.rest =
      Printer.value .evaluated (.array mixedArray) ++ utf8 ";" := by decide +kernel
  exact ⟨printable, text, value_array printable text⟩

end DeviceTree
