import Mathlib
import DeviceTree.Expr.Parser

namespace DeviceTree
namespace Expr

def strata : List (List BinaryOp) :=
  [[.or], [.and], [.bitOr], [.bitXor], [.bitAnd], [.eq, .ne], [.lt, .gt, .le, .ge], [.shiftLeft, .shiftRight],
    [.add, .sub], [.mul, .div, .rem]]

-- The tokens of an expression whose binary operators outside parentheses are in the given strata. The left
-- operand may hold operators of the same stratum and the right one may not, so equals associate to the left.
inductive Phrase : List (List BinaryOp) → List Token → Expr → Prop where
  | number (value : Int64) : Phrase [] [.number value] (.number value)
  | group {inside : List Token} {e : Expr} (inner : Phrase strata inside e) : Phrase [] (.lparen :: (inside ++ [.rparen])) e
  | unary {op : Operator} {u : UnaryOp} {rest : List Token} {e : Expr} (spelled : op.unary? = some u)
      (inner : Phrase [] rest e) : Phrase [] (.operator op :: rest) (.unary u e)
  | tighter {ops : List BinaryOp} {levels : List (List BinaryOp)} {tokens : List Token} {e : Expr}
      (inner : Phrase levels tokens e) : Phrase (ops :: levels) tokens e
  | binary {ops : List BinaryOp} {levels : List (List BinaryOp)} {op : Operator} {b : BinaryOp}
      {before after : List Token} {left right : Expr} (first : Phrase (ops :: levels) before left)
      (spelled : op.binary? = some b) (member : b ∈ ops) (second : Phrase levels after right) :
      Phrase (ops :: levels) (before ++ .operator op :: after) (.binary b left right)

theorem strata_level (b : BinaryOp) :
    0 < b.level ∧ ∃ ops, strata.drop (b.level - 1) = ops :: strata.drop b.level ∧ b ∈ ops := by
  cases b <;> exact ⟨by decide, _, rfl, by decide⟩

theorem level_of_stratum {k : Nat} {ops : List BinaryOp} {levels : List (List BinaryOp)} {b : BinaryOp}
    (here : strata.drop k = ops :: levels) (member : b ∈ ops) : b.level = k + 1 := by
  have numbered : ∀ k : Fin 10, ∀ b ∈ strata.get ⟨k, k.isLt⟩, b.level = k + 1 := by decide
  have bound : k < strata.length := by
    refine Nat.lt_of_not_le fun beyond => ?_
    rw [List.drop_eq_nil_of_le beyond] at here
    cases here
  rw [List.drop_eq_getElem_cons bound] at here
  obtain ⟨rfl, -⟩ := List.cons.inj here
  exact numbered ⟨k, bound⟩ b member

theorem Phrase.down_one {n : Nat} {tokens : List Token} {e : Expr} (phrase : Phrase (strata.drop (n + 1)) tokens e) :
    Phrase (strata.drop n) tokens e := by
  rw [← List.tail_drop] at phrase
  cases levels : strata.drop n with
  | nil => rwa [levels] at phrase
  | cons ops rest =>
    rw [levels] at phrase
    exact .tighter phrase

theorem Phrase.down {n k : Nat} (le : n ≤ k) {tokens : List Token} {e : Expr} (phrase : Phrase (strata.drop k) tokens e) :
    Phrase (strata.drop n) tokens e := by
  induction le with
  | refl => exact phrase
  | step _ ih => exact ih phrase.down_one

theorem Phrase.operand {k : Nat} {tokens : List Token} {e : Expr} (phrase : Phrase [] tokens e) :
    Phrase (strata.drop k) tokens e := by
  have none : strata.drop (k + 10) = [] := List.drop_eq_nil_of_le (by simp [strata])
  exact Phrase.down (Nat.le_add_right k 10) (by rwa [none])

def Stops (n : Nat) (rest : List Token) : Prop :=
  ∀ op more b, rest = .operator op :: more → op.binary? = some b → b.level ≤ n

theorem Stops.mono {n k : Nat} (le : n ≤ k) {rest : List Token} (stops : Stops n rest) : Stops k rest :=
  fun op more b front spelled => Nat.le_trans (stops op more b front spelled) le

theorem level_le_ten (b : BinaryOp) : b.level ≤ 10 := by
  cases b <;> decide

theorem stops_ten (rest : List Token) : Stops 10 rest := fun _ _ b _ _ => level_le_ten b

def SoundOperand (fuel : Nat) : Prop :=
  ∀ tokens e rest, operand fuel tokens = some (e, rest) → ∃ used, tokens = used ++ rest ∧ Phrase [] used e

def SoundAbove (fuel : Nat) : Prop :=
  ∀ n tokens e rest, above fuel n tokens = some (e, rest) →
    ∃ used, tokens = used ++ rest ∧ Phrase (strata.drop n) used e ∧ Stops n rest

-- The operators of a chain are in descending strata, so all that was read so far lies one stratum below the
-- last operator.
def SoundExtend (fuel : Nat) : Prop :=
  ∀ n k used left tokens e rest, n ≤ k → Phrase (strata.drop k) used left → Stops (k + 1) tokens →
    extend fuel n left tokens = some (e, rest) →
    ∃ more, tokens = more ++ rest ∧ Phrase (strata.drop n) (used ++ more) e ∧ Stops n rest

theorem operand_sound {fuel : Nat} (inner : SoundOperand fuel) (inside : SoundAbove fuel) : SoundOperand (fuel + 1) := by
  intro tokens e rest read
  unfold Expr.operand at read
  split at read
  · rename_i v more
    cases read
    exact ⟨[.number v], rfl, .number v⟩
  · rename_i more
    split at read
    · rename_i found after grouped
      cases read
      obtain ⟨used, rfl, phrase, -⟩ := inside 0 _ _ _ grouped
      exact ⟨.lparen :: (used ++ [.rparen]), by simp, .group phrase⟩
    · cases read
  · rename_i op more
    split at read
    · rename_i u found after spelled again
      cases read
      obtain ⟨used, rfl, phrase⟩ := inner _ _ _ again
      exact ⟨.operator op :: used, rfl, .unary spelled phrase⟩
    · cases read
  · cases read

theorem above_sound {fuel : Nat} (first : SoundOperand fuel) (chain : SoundExtend fuel) : SoundAbove (fuel + 1) := by
  intro n tokens e rest read
  rw [above] at read
  split at read
  · rename_i left after operand
    obtain ⟨used, rfl, phrase⟩ := first _ _ _ operand
    obtain ⟨more, rfl, whole, stops⟩ := chain n (n + 10) used left after e rest (by omega) phrase.operand
      ((stops_ten after).mono (by omega)) read
    exact ⟨used ++ more, by simp, whole, stops⟩
  · cases read

theorem extend_sound {fuel : Nat} (operand : SoundAbove fuel) (chain : SoundExtend fuel) : SoundExtend (fuel + 1) := by
  intro n k used left tokens e rest le phrase stops read
  have ended : Stops n tokens → some (left, tokens) = some (e, rest) →
      ∃ more, tokens = more ++ rest ∧ Phrase (strata.drop n) (used ++ more) e ∧ Stops n rest := by
    rintro stops ⟨⟩
    exact ⟨[], rfl, by simpa using phrase.down le, stops⟩
  unfold extend at read
  split at read
  · rename_i op after
    split at read
    · rename_i b spelled
      split at read
      · rename_i low
        refine ended ?_ read
        rintro op' more b' ⟨⟩ spelled'
        rw [spelled] at spelled'
        cases spelled'
        exact low
      · rename_i high
        split at read
        · rename_i right beyond found
          obtain ⟨next, rfl, second, stopped⟩ := operand b.level _ _ _ found
          obtain ⟨positive, ops, stratum, member⟩ := strata_level b
          have bound := stops op _ b rfl spelled
          have first : Phrase (strata.drop (b.level - 1)) used left := phrase.down (by omega)
          rw [stratum] at first
          have joined : Phrase (strata.drop (b.level - 1)) (used ++ .operator op :: next) (.binary b left right) := by
            rw [stratum]
            exact .binary first spelled member second
          obtain ⟨more, rfl, whole, rested⟩ := chain n (b.level - 1) _ _ _ _ _ (by omega) joined
            (stopped.mono (by omega)) read
          exact ⟨.operator op :: (next ++ more), by simp, by simpa using whole, rested⟩
        · cases read
    · rename_i unspelled
      refine ended ?_ read
      rintro op' more b ⟨⟩ spelled
      rw [unspelled] at spelled
      cases spelled
  · rename_i other
    refine ended ?_ read
    rintro op more b rfl -
    exact absurd rfl (other op more)

theorem reading_sound (fuel : Nat) : SoundOperand fuel ∧ SoundAbove fuel ∧ SoundExtend fuel := by
  induction fuel with
  | zero =>
    refine ⟨?_, ?_, ?_⟩
    · intro _ _ _ read
      rw [Expr.operand] at read
      cases read
    · intro _ _ _ _ read
      rw [above] at read
      cases read
    · intro _ _ _ _ _ _ _ _ _ _ read
      rw [extend] at read
      cases read
  | succ fuel ih =>
    obtain ⟨operands, phrases, chains⟩ := ih
    exact ⟨operand_sound operands phrases, above_sound operands chains, extend_sound phrases chains⟩

-- A phrase is read as it stands, whatever comes after it. Reading a phrase spends two units of fuel for a token.

def ReadsOperand (used : List Token) (e : Expr) : Prop :=
  ∀ fuel rest, 2 * used.length ≤ fuel + 1 → operand fuel (used ++ rest) = some (e, rest)

def ReadsChain (k : Nat) (used : List Token) (e : Expr) : Prop :=
  ∀ n fuel rest, n ≤ k → Stops (k + 1) rest → 2 * used.length ≤ fuel →
    ∃ left, fuel ≤ left + 2 * used.length ∧ above fuel n (used ++ rest) = extend left n e rest

theorem extend_stops {fuel n : Nat} {e : Expr} {rest : List Token} (stops : Stops n rest) :
    extend (fuel + 1) n e rest = some (e, rest) := by
  unfold extend
  split
  · rename_i op more
    split
    · rename_i b spelled
      rw [if_pos (stops op more b rfl spelled)]
    · rfl
  · rfl

theorem Phrase.length_pos {levels : List (List BinaryOp)} {tokens : List Token} {e : Expr} (phrase : Phrase levels tokens e) :
    0 < tokens.length := by
  induction phrase with
  | tighter _ ih => exact ih
  | binary =>
    rw [List.length_append, List.length_cons]
    omega
  | _ => exact Nat.succ_pos _

theorem ReadsOperand.chain {used : List Token} {e : Expr} (reads : ReadsOperand used e) (some : 0 < used.length) (k : Nat) :
    ReadsChain k used e := by
  intro n fuel rest _ _ enough
  obtain ⟨fuel, rfl⟩ : ∃ spent, fuel = spent + 1 := ⟨fuel - 1, by omega⟩
  refine ⟨fuel, by omega, ?_⟩
  rw [above, reads fuel rest (by omega)]

theorem ReadsChain.closed {used : List Token} {e : Expr} {n : Nat} {rest : List Token} (reads : ReadsChain n used e)
    (stops : Stops n rest) (fuel : Nat) (enough : 2 * used.length < fuel) : above fuel n (used ++ rest) = some (e, rest) := by
  obtain ⟨left, bound, equal⟩ := reads n fuel rest (Nat.le_refl n) (stops.mono (Nat.le_succ n)) (by omega)
  obtain ⟨left, rfl⟩ : ∃ spent, left = spent + 1 := ⟨left - 1, by omega⟩
  rw [equal, extend_stops stops]

theorem ReadsChain.binary {k : Nat} {before after : List Token} {left right : Expr} {op : Operator} {b : BinaryOp}
    (first : ReadsChain k before left) (spelled : op.binary? = some b) (level : b.level = k + 1)
    (second : ReadsChain (k + 1) after right) : ReadsChain k (before ++ .operator op :: after) (.binary b left right) := by
  intro n fuel rest le stops enough
  simp only [List.length_append, List.length_cons] at enough ⊢
  have next : Stops (k + 1) (.operator op :: (after ++ rest)) := by
    rintro op' more b' ⟨⟩ spelled'
    rw [spelled] at spelled'
    cases spelled'
    exact Nat.le_of_eq level
  obtain ⟨spare, bound, equal⟩ := first n fuel _ le next (by omega)
  obtain ⟨spare, rfl⟩ : ∃ spent, spare = spent + 1 := ⟨spare - 1, by omega⟩
  have operand : above spare b.level (after ++ rest) = some (right, rest) := by
    rw [level]
    exact second.closed stops spare (by omega)
  refine ⟨spare, by omega, ?_⟩
  rw [List.append_assoc, List.cons_append, equal, extend]
  simp only [spelled, operand, if_neg (show ¬ b.level ≤ n by omega)]

theorem Phrase.reads {levels : List (List BinaryOp)} {used : List Token} {e : Expr} (phrase : Phrase levels used e) :
    (levels = [] → ReadsOperand used e) ∧ ∀ k, levels = strata.drop k → ReadsChain k used e := by
  have operand : ∀ {used : List Token} {e : Expr}, Phrase [] used e → ReadsOperand used e →
      (([] : List (List BinaryOp)) = [] → ReadsOperand used e) ∧
        ∀ k, ([] : List (List BinaryOp)) = strata.drop k → ReadsChain k used e :=
    fun phrase reads => ⟨fun _ => reads, fun k _ => reads.chain phrase.length_pos k⟩
  induction phrase with
  | number v =>
    refine operand (.number v) ?_
    intro fuel rest enough
    simp only [List.length_cons, List.length_nil] at enough
    obtain ⟨fuel, rfl⟩ : ∃ spent, fuel = spent + 1 := ⟨fuel - 1, by omega⟩
    rfl
  | @group inside e inner ih =>
    refine operand (.group inner) ?_
    intro fuel rest enough
    simp only [List.length_cons, List.length_append, List.length_nil] at enough
    obtain ⟨fuel, rfl⟩ : ∃ spent, fuel = spent + 1 := ⟨fuel - 1, by omega⟩
    have stops : Stops 0 (.rparen :: rest) := by
      rintro op more b ⟨⟩
    have closed := (ih.2 0 rfl).closed stops fuel (by omega)
    rw [List.cons_append, List.append_assoc, Expr.operand]
    simp only [List.cons_append, List.nil_append, closed]
  | @unary op u more e spelled inner ih =>
    refine operand (.unary spelled inner) ?_
    intro fuel rest enough
    simp only [List.length_cons] at enough
    obtain ⟨fuel, rfl⟩ : ∃ spent, fuel = spent + 1 := ⟨fuel - 1, by omega⟩
    rw [List.cons_append, Expr.operand]
    simp only [spelled, ih.1 rfl fuel rest (by omega)]
  | @tighter ops levels tokens e inner ih =>
    refine ⟨nofun, ?_⟩
    intro k here n fuel rest le stops
    have levels : levels = strata.drop (k + 1) := by rw [← List.tail_drop, ← here, List.tail_cons]
    exact ih.2 (k + 1) levels n fuel rest (by omega) (stops.mono (by omega))
  | @binary ops levels op b before after left right first spelled member second one two =>
    refine ⟨nofun, ?_⟩
    intro k here
    have levels : levels = strata.drop (k + 1) := by rw [← List.tail_drop, ← here, List.tail_cons]
    exact (one.2 k here).binary spelled (level_of_stratum here.symm member) (two.2 (k + 1) levels)

theorem ofTokens_eq_some_iff {tokens : List Token} {e : Expr} : ofTokens? tokens = some e ↔ Phrase strata tokens e := by
  unfold ofTokens?
  constructor
  · intro read
    split at read
    · rename_i found equal
      cases read
      obtain ⟨used, split, phrase, -⟩ := (reading_sound _).2.1 0 _ _ _ equal
      rw [split, List.append_nil]
      exact phrase
    · cases read
  · intro phrase
    have stops : Stops 0 ([] : List Token) := by
      rintro op more b ⟨⟩
    have read := (phrase.reads.2 0 rfl).closed stops (2 * tokens.length + 2) (by omega)
    rw [List.append_nil] at read
    rw [read]

end Expr

def wrap (n : Int) : Int := n.bmod (2 ^ 64)
def bits (n : Int) : Nat := (n % 2 ^ 64).toNat

def indicator (p : Prop) [Decidable p] : Int := if p then 1 else 0

def UnaryOp.meaning : UnaryOp → Int → Int
  | .neg, v => wrap (-v)
  | .plus, v => v
  | .complement, v => -v - 1
  | .not, v => indicator (v = 0)

-- A quotient is cut towards zero and the remainder has the sign of the dividend; a shift to the right rounds down.
def BinaryOp.meaning : BinaryOp → Int → Int → Option Int
  | .mul, a, b => some (wrap (a * b))
  | .div, a, b => if b = 0 then none else some (wrap (a.tdiv b))
  | .rem, a, b => if b = 0 then none else some (a.tmod b)
  | .add, a, b => some (wrap (a + b))
  | .sub, a, b => some (wrap (a - b))
  | .shiftLeft, a, b => if 0 ≤ b ∧ b ≤ 63 then some (wrap (a * 2 ^ b.toNat)) else none
  | .shiftRight, a, b => if 0 ≤ b ∧ b ≤ 63 then some (a / 2 ^ b.toNat) else none
  | .lt, a, b => some (indicator (a < b))
  | .gt, a, b => some (indicator (a > b))
  | .le, a, b => some (indicator (a ≤ b))
  | .ge, a, b => some (indicator (a ≥ b))
  | .eq, a, b => some (indicator (a = b))
  | .ne, a, b => some (indicator (a ≠ b))
  | .bitAnd, a, b => some (wrap (bits a &&& bits b : Nat))
  | .bitXor, a, b => some (wrap (bits a ^^^ bits b : Nat))
  | .bitOr, a, b => some (wrap (bits a ||| bits b : Nat))
  | .and, a, b => some (indicator (a ≠ 0 ∧ b ≠ 0))
  | .or, a, b => some (indicator (a ≠ 0 ∨ b ≠ 0))

-- An operand without a meaning leaves the whole expression without one.
def Expr.meaning : Expr → Option Int
  | .number value => some value.toInt
  | .unary op operand => operand.meaning.map op.meaning
  | .binary op left right =>
    left.meaning.bind fun a => right.meaning.bind fun b => op.meaning a b

theorem toInt_truth (p : Bool) : (truth p).toInt = indicator (p = true) := by
  cases p <;> rfl

theorem indicator_congr {p q : Prop} [Decidable p] [Decidable q] (same : p ↔ q) : indicator p = indicator q := by
  simp only [indicator, same]

theorem toInt_residue (a : Int64) : a.toInt = wrap a.toBitVec.toNat := BitVec.toInt_eq_toNat_bmod a.toBitVec

theorem bits_toInt (a : Int64) : bits a.toInt = a.toBitVec.toNat := by
  have bound := a.toBitVec.isLt
  rw [bits, toInt_residue, wrap, show (2 ^ 64 : Int) = ((2 ^ 64 : Nat) : Int) from rfl, Int.bmod_emod]
  omega

theorem toInt_eq_zero {a : Int64} : a.toInt = 0 ↔ a = 0 := Int64.toInt_inj (y := 0)

theorem UnaryOp.apply_meaning (op : UnaryOp) (v : Int64) : (op.apply v).toInt = op.meaning v.toInt := by
  cases op with
  | neg => exact Int64.toInt_neg v
  | plus => rfl
  | complement =>
    have above := v.toInt_lt
    have below := v.le_toInt
    rw [UnaryOp.apply, UnaryOp.meaning, Int64.toInt_not, Int.bmod_eq_of_le] <;> omega
  | not =>
    rw [UnaryOp.apply, UnaryOp.meaning, toInt_truth]
    exact indicator_congr (by rw [beq_iff_eq, toInt_eq_zero])

theorem shiftCount {b : Int64} (low : 0 ≤ b.toInt) (high : b.toInt ≤ 63) :
    (b.toBitVec.smod 64).toNat = b.toInt.toNat := by
  have signed : (b.toBitVec.smod 64).toInt = b.toInt := by
    rw [BitVec.toInt_smod]
    exact Int.fmod_eq_of_lt low (Int.lt_of_le_of_lt high (by decide))
  rw [BitVec.toInt_eq_toNat_cond] at signed
  split at signed
  · omega
  · have bound := (b.toBitVec.smod 64).isLt
    omega

theorem toInt_shiftLeft {a b : Int64} (low : 0 ≤ b.toInt) (high : b.toInt ≤ 63) :
    (a <<< b).toInt = wrap (a.toInt * 2 ^ b.toInt.toNat) := by
  change (a <<< b).toBitVec.toInt = _
  rw [Int64.toBitVec_shiftLeft, BitVec.shiftLeft_eq', shiftCount low high, BitVec.toInt_shiftLeft, Nat.shiftLeft_eq,
    toInt_residue a, wrap, wrap, Int.bmod_mul_bmod, Int.natCast_mul]
  rfl

theorem toInt_shiftRight {a b : Int64} (low : 0 ≤ b.toInt) (high : b.toInt ≤ 63) :
    (a >>> b).toInt = a.toInt / 2 ^ b.toInt.toNat := by
  change (a >>> b).toBitVec.toInt = _
  rw [Int64.toBitVec_shiftRight, BitVec.sshiftRight', shiftCount low high, BitVec.toInt_sshiftRight,
    Int.shiftRight_eq_div_pow]
  rfl

theorem refused_iff (b : Int64) : (b < 0 || b > 63) = true ↔ ¬ (0 ≤ b.toInt ∧ b.toInt ≤ 63) := by
  rw [Bool.or_eq_true, decide_eq_true_iff, decide_eq_true_iff, gt_iff_lt, Int64.lt_iff_toInt_lt, Int64.lt_iff_toInt_lt]
  change b.toInt < 0 ∨ 63 < b.toInt ↔ _
  omega

theorem map_refused {b : Int64} {v : Int64} {n : Int} (same : 0 ≤ b.toInt → b.toInt ≤ 63 → v.toInt = n) :
    (if (b < 0 || b > 63) = true then none else some v).map Int64.toInt =
      if 0 ≤ b.toInt ∧ b.toInt ≤ 63 then some n else none := by
  by_cases fits : 0 ≤ b.toInt ∧ b.toInt ≤ 63
  · rw [if_neg (fun refused => (refused_iff b).mp refused fits), if_pos fits, Option.map_some, same fits.1 fits.2]
  · rw [if_pos ((refused_iff b).mpr fits), if_neg fits, Option.map_none]

theorem map_divided {b v : Int64} {n : Int} (same : v.toInt = n) :
    (if b = 0 then none else some v).map Int64.toInt = if b.toInt = 0 then none else some n := by
  by_cases zero : b = 0
  · rw [if_pos zero, if_pos (toInt_eq_zero.mpr zero), Option.map_none]
  · rw [if_neg zero, if_neg (fun number => zero (toInt_eq_zero.mp number)), Option.map_some, same]

theorem map_truth {p : Bool} {q : Prop} [Decidable q] (same : p = true ↔ q) :
    (some (truth p)).map Int64.toInt = some (indicator q) := by
  rw [Option.map_some, toInt_truth, indicator_congr same]

theorem BinaryOp.apply_meaning (op : BinaryOp) (a b : Int64) :
    (op.apply a b).map Int64.toInt = op.meaning a.toInt b.toInt := by
  cases op with
  | mul => exact congrArg some (Int64.toInt_mul a b)
  | add => exact congrArg some (Int64.toInt_add a b)
  | sub => exact congrArg some (Int64.toInt_sub a b)
  | div => exact map_divided (Int64.toInt_div a b)
  | rem => exact map_divided (Int64.toInt_mod a b)
  | shiftLeft => exact map_refused toInt_shiftLeft
  | shiftRight => exact map_refused toInt_shiftRight
  | lt => exact map_truth (by rw [decide_eq_true_iff, Int64.lt_iff_toInt_lt])
  | gt => exact map_truth (by rw [decide_eq_true_iff, gt_iff_lt, Int64.lt_iff_toInt_lt])
  | le => exact map_truth (by rw [decide_eq_true_iff, Int64.le_iff_toInt_le])
  | ge => exact map_truth (by rw [decide_eq_true_iff, ge_iff_le, Int64.le_iff_toInt_le])
  | eq => exact map_truth (by rw [beq_iff_eq, Int64.toInt_inj])
  | ne => exact map_truth (by rw [bne_iff_ne, ne_eq, ne_eq, Int64.toInt_inj])
  | and => exact map_truth (by simp only [Bool.and_eq_true, bne_iff_ne, ne_eq, toInt_eq_zero])
  | or => exact map_truth (by simp only [Bool.or_eq_true, bne_iff_ne, ne_eq, toInt_eq_zero])
  | bitAnd =>
    rw [BinaryOp.apply, BinaryOp.meaning, bits_toInt, bits_toInt]
    exact congrArg some (BitVec.toInt_and a.toBitVec b.toBitVec)
  | bitXor =>
    rw [BinaryOp.apply, BinaryOp.meaning, bits_toInt, bits_toInt]
    exact congrArg some (BitVec.toInt_xor a.toBitVec b.toBitVec)
  | bitOr =>
    rw [BinaryOp.apply, BinaryOp.meaning, bits_toInt, bits_toInt]
    exact congrArg some (BitVec.toInt_or a.toBitVec b.toBitVec)

namespace Expr

theorem eval_meaning (e : Expr) : e.eval.map Int64.toInt = e.meaning := by
  induction e with
  | number value => rfl
  | unary op operand ih =>
    rw [eval, meaning, ← ih, Option.map_map, Option.map_map]
    exact congrArg (operand.eval.map ·) (funext (op.apply_meaning ·))
  | binary op left right one two =>
    rw [eval, meaning, ← one, ← two]
    cases left.eval with
    | none => rfl
    | some a =>
      cases right.eval with
      | none => rfl
      | some b => exact op.apply_meaning a b

theorem eval_eq_some_iff {e : Expr} {v : Int64} : e.eval = some v ↔ e.meaning = some v.toInt := by
  rw [← eval_meaning, Option.map_eq_some_iff]
  constructor
  · intro equal
    exact ⟨v, equal, rfl⟩
  · rintro ⟨w, equal, same⟩
    rw [equal, Int64.toInt_inj.mp same]

-- The tokens have a value exactly if they are a phrase of the grammar, which then is the only one, and the value is
-- what the phrase means.
theorem ofTokens_value_iff (tokens : List Token) (v : Int64) : (ofTokens? tokens).bind eval = some v ↔
    ∃ e, Phrase strata tokens e ∧ (∀ other, Phrase strata tokens other → other = e) ∧ e.meaning = some v.toInt := by
  rw [Option.bind_eq_some_iff]
  constructor
  · rintro ⟨e, read, value⟩
    refine ⟨e, ofTokens_eq_some_iff.mp read, ?_, eval_eq_some_iff.mp value⟩
    intro other phrase
    rw [← ofTokens_eq_some_iff, read] at phrase
    exact (Option.some.inj phrase).symm
  · rintro ⟨e, phrase, -, meaning⟩
    exact ⟨e, ofTokens_eq_some_iff.mpr phrase, eval_eq_some_iff.mpr meaning⟩

example : (ofTokens? [.number 1, .operator (.sign .neg .sub), .number 2, .operator (.sign .neg .sub), .number 3,
    .operator (.binary .shiftLeft), .number 1]).bind eval = some (-8) := by decide

end Expr
end DeviceTree
