import DeviceTree.Proofs.Tokens
import DeviceTree.Server.Frame

namespace DeviceTree

theorem Text.trimSpace_blank (text : Bytes) : trimSpace (0x20 :: text) = trimSpace text := by
  have first : decode (0x20 :: text) = .scalar 0x20 :: decode text := by
    rw [decode, decodeAfter.eq_def]
    rfl
  rw [trimSpace, trimSpace, first, List.dropWhile_cons_of_pos (by decide)]

theorem Bytes.decimal_digit {n : Nat} : ∀ b ∈ decimal n, isDigit b = true := by
  intro b member
  obtain ⟨d, small, rfl⟩ := digits_mem (by decide) member
  have each : ∀ d < 10, isDigit (Nat.digitChar d).toUInt8 = true := by decide
  exact each d small

theorem Bytes.decimal_ne_nil (n : Nat) : decimal n ≠ [] := by
  rw [decimal, ne_eq, List.map_eq_nil_iff]
  exact Nat.toDigits_ne_nil

namespace Frame

theorem digit_plain : ∀ b : UInt8, Bytes.isDigit b = true →
    b < 0x80 ∧ (Text.Rune.scalar b.toNat).isSpace = false ∧ isSign b = false ∧ b ≠ 0x0a ∧ isLineEnd b = false :=
  forall_byte (by decide +kernel)

theorem readBody_shorter {length : Option Int} {input body rest : Bytes}
    (found : readBody length input = .message body rest) : rest.length ≤ input.length := by
  unfold readBody at found
  split at found
  · split at found
    · cases found
      exact List.length_drop ▸ Nat.sub_le _ _
    · split at found <;> cases found
  · cases found

theorem readHeader_shorter {length : Option Int} {input body rest : Bytes}
    (found : readHeader length input = .message body rest) : rest.length < input.length := by
  fun_induction readHeader length input with
  | case1 => cases found
  | case2 length input line after cut trimmed empty =>
    exact Nat.lt_of_le_of_lt (readBody_shorter found) (length_cut cut)
  | case3 length input line after cut trimmed more other ih => exact (ih found).trans (length_cut cut)
  | case4 => cases found
  | case5 => cases found
  | case6 length input line after cut trimmed more value named n read ih => exact (ih found).trans (length_cut cut)

-- All messages of a stream, and why it cannot be read on; nothing keeps it from being read to its end.
def readAll (input : Bytes) : List Bytes × Option Problem :=
  match _found : read input with
  | .message body rest =>
    let (more, problem) := readAll rest
    (body :: more, problem)
  | .done => ([], none)
  | .failed problem => ([], some problem)
termination_by input.length
decreasing_by exact readHeader_shorter _found

def lengthLine (n : Nat) : Bytes := utf8 "Content-Length: " ++ Bytes.decimal n

theorem write_lines (body rest : Bytes) : write body ++ rest =
    (lengthLine body.length ++ [0x0d]) ++ 0x0a :: ([0x0d] ++ 0x0a :: (body ++ rest)) := by
  simp only [write, lengthLine, List.append_assoc]
  rfl

theorem lengthLine_single (n : Nat) : 0x0a ∉ lengthLine n ++ [0x0d] := by
  rw [lengthLine, List.mem_append, List.mem_append, not_or, not_or]
  refine ⟨⟨by decide, fun feed => ?_⟩, by decide⟩
  exact (digit_plain _ (Bytes.decimal_digit _ feed)).2.2.2.1 rfl

theorem trimRight_line (n : Nat) : Bytes.trimRight isLineEnd (lengthLine n ++ [0x0d]) = lengthLine n := by
  have nonempty := Bytes.decimal_ne_nil n
  have last := (digit_plain _ (Bytes.decimal_digit _ (List.getLast_mem nonempty))).2.2.2.2
  have whole : lengthLine n = utf8 "Content-Length: " ++ (Bytes.decimal n).dropLast ++ [(Bytes.decimal n).getLast nonempty] := by
    rw [List.append_assoc, List.dropLast_append_getLast, lengthLine]
  rw [whole, Bytes.trimRight, List.reverse_append, List.reverse_append, List.reverse_singleton, List.reverse_singleton,
    List.singleton_append, List.singleton_append, List.dropWhile_cons_of_pos (by decide),
    List.dropWhile_cons_of_neg (by simp [last]), List.reverse_cons, List.reverse_reverse]

theorem lengthLine_value (n : Nat) : lengthValue? (lengthLine n) = some (0x20 :: Bytes.decimal n) := by
  have apart : 0x3a ∉ utf8 "Content-Length" := by decide
  have cut : Bytes.cut 0x3a (lengthLine n) = some (utf8 "Content-Length", 0x20 :: Bytes.decimal n) := Expr.cut_append apart
  rw [lengthValue?, cut]
  exact if_pos (by decide +kernel)

theorem readLength_decimal (n : Nat) : readLength (0x20 :: Bytes.decimal n) =
    if n < 2 ^ 63 then .ok (some (n : Int)) else .error (.outOfRange (Bytes.decimal n)) := by
  have digits := Bytes.decimal_digit (n := n)
  have text : Text.trimSpace (0x20 :: Bytes.decimal n) = Bytes.decimal n := by
    rw [Text.trimSpace_blank]
    exact Text.trimSpace_plain (fun b member => (digit_plain b (digits b member)).1)
      fun b member => (digit_plain b (digits b member)).2.1
  have unsigned : ((Bytes.decimal n).take 1).takeWhile isSign = [] := by
    cases whole : Bytes.decimal n with
    | nil => rfl
    | cons b rest =>
      have plain := (digit_plain b (digits b (whole ▸ List.mem_cons_self))).2.2.1
      simp [plain]
  have all : (Bytes.decimal n).takeWhile Bytes.isDigit = Bytes.decimal n := List.takeWhile_eq_self_iff.mpr digits
  have read : Bytes.readDigits 10 (Bytes.decimal n) = some n := Bytes.readDigits_toDigits n (by decide) (by decide)
  have fits : (Int64.minValue.toInt ≤ (n : Int) && (n : Int) ≤ Int64.maxValue.toInt) = decide (n < 2 ^ 63) := by
    have least : Int64.minValue.toInt = -2 ^ 63 := by decide
    have greatest : Int64.maxValue.toInt = 2 ^ 63 - 1 := by decide
    rw [least, greatest, Bool.eq_iff_iff, Bool.and_eq_true, decide_eq_true_eq, decide_eq_true_eq, decide_eq_true_eq]
    omega
  have nonempty : (Bytes.decimal n).isEmpty = false := List.isEmpty_eq_false_iff.mpr (Bytes.decimal_ne_nil n)
  rw [readLength]
  simp only [text, unsigned, List.length_nil, List.drop_zero, all, read, nonempty, List.nil_append, Bool.false_eq_true,
    List.nil_eq, reduceCtorEq, if_false, fits, decide_eq_true_eq]

theorem readHeader_blank (length : Option Int) (rest : Bytes) :
    readHeader length (0x0d :: 0x0a :: rest) = readBody length rest := by
  have cut : Bytes.cut 0x0a (0x0d :: 0x0a :: rest) = some ([0x0d], rest) := rfl
  rw [readHeader]
  split
  · rename_i missing
    cases cut.symm.trans missing
  · rename_i line after found
    cases cut.symm.trans found
    exact if_pos rfl

theorem readHeader_length (length : Option Int) (n : Nat) (rest : Bytes) :
    readHeader length ((lengthLine n ++ [0x0d]) ++ 0x0a :: rest) =
      if n < 2 ^ 63 then readHeader (some n) rest
      else .failed (.badLength (0x20 :: Bytes.decimal n) (.outOfRange (Bytes.decimal n))) := by
  have cut : Bytes.cut 0x0a ((lengthLine n ++ [0x0d]) ++ 0x0a :: rest) = some (lengthLine n ++ [0x0d], rest) :=
    Expr.cut_append (lengthLine_single n)
  rw [readHeader]
  split
  · rename_i missing
    cases cut.symm.trans missing
  · rename_i line after found
    cases cut.symm.trans found
    have filled : (lengthLine n).isEmpty = false := rfl
    simp only [trimRight_line, filled, Bool.false_eq_true, if_false, lengthLine_value, readLength_decimal]
    by_cases fits : n < 2 ^ 63
    · simp only [if_pos fits]
    · simp only [if_neg fits]

theorem read_write (body rest : Bytes) : read (write body ++ rest) =
    if body.length < 2 ^ 63 then .message body rest
    else .failed (.badLength (0x20 :: Bytes.decimal body.length) (.outOfRange (Bytes.decimal body.length))) := by
  rw [read, write_lines, readHeader_length]
  by_cases fits : body.length < 2 ^ 63
  · rw [if_pos fits, if_pos fits]
    change readHeader (some body.length) (0x0d :: 0x0a :: (body ++ rest)) = _
    rw [readHeader_blank]
    have whole : body.length ≤ (body ++ rest).length := by simp
    change (if body.length ≤ (body ++ rest).length then _ else _) = _
    rw [if_pos whole, List.take_left, List.drop_left]
  · rw [if_neg fits, if_neg fits]

theorem readAll_message {input body rest : Bytes} (found : read input = .message body rest) :
    readAll input = (body :: (readAll rest).1, (readAll rest).2) := by
  rw [readAll]
  split
  · rename_i other more same
    cases found.symm.trans same
    rfl
  · rename_i same
    cases found.symm.trans same
  · rename_i same
    cases found.symm.trans same

theorem readAll_failed {input : Bytes} {problem : Problem} (found : read input = .failed problem) :
    readAll input = ([], some problem) := by
  rw [readAll]
  split
  · rename_i same
    cases found.symm.trans same
  · rename_i same
    cases found.symm.trans same
  · rename_i other same
    cases found.symm.trans same
    rfl

theorem readAll_nil : readAll [] = ([], none) := by
  have ends : read [] = .done := by
    rw [read, readHeader]
    rfl
  rw [readAll]
  split
  · rename_i same
    cases ends.symm.trans same
  · rfl
  · rename_i same
    cases ends.symm.trans same

theorem readAll_frames (bodies : List Bytes) (rest : Bytes) (short : ∀ body ∈ bodies, body.length < 2 ^ 63) :
    readAll (bodies.flatMap write ++ rest) = (bodies ++ (readAll rest).1, (readAll rest).2) := by
  induction bodies with
  | nil => rfl
  | cons body bodies ih =>
    obtain ⟨fits, later⟩ := List.forall_mem_cons.mp short
    have first := read_write body (bodies.flatMap write ++ rest)
    rw [if_pos fits] at first
    rw [List.flatMap_cons, List.append_assoc, readAll_message first, ih later]
    rfl

-- Bodies that are framed one behind the other are read in their order, and then the stream ends. No length is too
-- large but one that no word can hold.
theorem readAll_write_iff (bodies : List Bytes) :
    readAll (bodies.flatMap write) = (bodies, none) ↔ ∀ body ∈ bodies, body.length < 2 ^ 63 := by
  constructor
  · intro returned
    induction bodies with
    | nil => exact List.forall_mem_nil _
    | cons body bodies ih =>
      have first := read_write body (bodies.flatMap write)
      rw [List.flatMap_cons] at returned
      split at first
      · rename_i fits
        rw [readAll_message first] at returned
        obtain ⟨same, ends⟩ := Prod.mk.inj returned
        have later := ih (Prod.ext (List.cons.inj same).2 ends)
        exact List.forall_mem_cons.mpr ⟨fits, later⟩
      · rw [readAll_failed first] at returned
        cases returned
  · intro short
    have whole := readAll_frames bodies [] short
    rwa [List.append_nil, readAll_nil, List.append_nil] at whole

end Frame
end DeviceTree
