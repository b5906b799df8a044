import DeviceTree.Expr.Decimal
import DeviceTree.Json.Basic

namespace DeviceTree

structure Binary where
  significand : Nat
  exponent : Int
  deriving DecidableEq, Repr

namespace Binary

def zero : Binary := ⟨0, 0⟩

def floor : Int := -1074

def normalize (significand : Nat) (exponent : Int) : Binary :=
  if significand = 1 <<< 53 then ⟨1 <<< 52, exponent + 1⟩ else ⟨significand, exponent⟩

def ofQuotient? (num den : Nat) : Option Binary :=
  let below (l : Int) : Bool :=
    if 0 ≤ l then num < den <<< l.toNat else num <<< (-l).toNat < den
  let guess : Int := (Nat.log2 num : Int) - Nat.log2 den
  let exponent := max ((if below guess then guess - 1 else guess) - 52) floor
  let significand :=
    if 0 ≤ exponent then Decimal.roundQuotient num (den <<< exponent.toNat)
    else Decimal.roundQuotient (num <<< (-exponent).toNat) den
  let b := normalize significand exponent
  if b.exponent > 971 then none else some b

-- Of numbers beyond these magnitudes the result is known without computing their powers.
def ofDecimal? (d : Decimal) : Option Binary :=
  let magnitude := d.exponent + (Bytes.decimal d.digits).length
  if d.digits = 0 || magnitude < -330 then some zero
  else if magnitude > 310 then none
  else if 0 ≤ d.exponent then ofQuotient? (d.digits * Nat.pow 10 d.exponent.toNat) 1
  else ofQuotient? d.digits (Nat.pow 10 (-d.exponent).toNat)

-- The reals that round to a number, in quarters of its last place; the ends belong to them
-- if the significand is even.
structure Neighbourhood where
  low : Nat
  value : Nat
  high : Nat
  denominator : Nat
  closed : Bool

def neighbourhood (b : Binary) : Neighbourhood :=
  let quarter := b.exponent - 2
  let scale := 1 <<< quarter.toNat
  let gap := if b.significand = 1 <<< 52 && b.exponent > floor then 1 else 2
  ⟨(4 * b.significand - gap) * scale, 4 * b.significand * scale, (4 * b.significand + 2) * scale,
    1 <<< (-quarter).toNat, b.significand % 2 = 0⟩

def Neighbourhood.weigh (n : Neighbourhood) (digits : Nat) (power : Int) (other : Nat) :
    Nat × Nat :=
  (digits * Nat.pow 10 power.toNat * n.denominator, other * Nat.pow 10 (-power).toNat)

def Neighbourhood.contains (n : Neighbourhood) (digits : Nat) (power : Int) : Bool :=
  let (x, low) := n.weigh digits power n.low
  let (y, high) := n.weigh digits power n.high
  if n.closed then low ≤ x && y ≤ high else low < x && y < high

def Neighbourhood.onGrid? (n : Neighbourhood) (power : Int) : Option Nat :=
  let below := n.value * Nat.pow 10 (-power).toNat / (Nat.pow 10 power.toNat * n.denominator)
  let (under, exactly) := n.weigh below power n.value
  let (above, _) := n.weigh (below + 1) power n.value
  match n.contains below power, n.contains (below + 1) power with
  | true, true =>
    let down := exactly - under
    let up := above - exactly
    if down < up || (down = up && below % 2 = 0) then some below else some (below + 1)
  | true, false => some below
  | false, true => some (below + 1)
  | false, false => none

def Neighbourhood.magnitude (n : Neighbourhood) : Int :=
  let log := (Nat.log2 n.value : Int) - Nat.log2 n.denominator
  let guess := log * 30103 / 100000
  let isBelow (k : Int) : Bool :=
    n.value * Nat.pow 10 (-k).toNat < Nat.pow 10 k.toNat * n.denominator
  if isBelow (guess - 1) then guess - 1
  else if isBelow guess then guess
  else if isBelow (guess + 1) then guess + 1
  else guess + 2

def shortest (b : Binary) : Decimal :=
  let n := b.neighbourhood
  let magnitude := n.magnitude
  let candidates := (List.range 17).map fun count => magnitude - ((count + 1 : Nat) : Int)
  match candidates.findSome? fun power => (n.onGrid? power).map (Decimal.mk · power) with
  | some d => d
  | none => ⟨0, 0⟩

end Binary

namespace Json

def significant (d : Decimal) : Bytes × Int :=
  let digits := Bytes.decimal d.digits
  (Bytes.trimRight (· == 0x30) digits, d.exponent + digits.length - 1)

def plain (digits : Bytes) (lead : Int) : Bytes :=
  if lead < 0 then
    utf8 "0." ++ List.replicate (-lead - 1).toNat 0x30 ++ digits
  else
    let whole := lead.toNat + 1
    let fraction := digits.drop whole
    digits.take whole ++ List.replicate (whole - digits.length) 0x30 ++
      (if fraction.isEmpty then [] else 0x2e :: fraction)

def scientific (digits : Bytes) (lead : Int) : Bytes :=
  let fraction := digits.drop 1
  digits.take 1 ++ (if fraction.isEmpty then [] else 0x2e :: fraction) ++ utf8 "e" ++
    (if lead < 0 then utf8 "-" else utf8 "+") ++ Bytes.decimal lead.natAbs

def decimalText (d : Decimal) : Bytes :=
  let (digits, lead) := significant d
  if lead < -6 || 21 ≤ lead then scientific digits lead else plain digits lead

def roundTrip? (literal : Bytes) : Option Bytes :=
  let (sign, body) : Bytes × Bytes := match literal with
    | 0x2d :: rest => ([0x2d], rest)
    | 0x2b :: rest => ([], rest)
    | rest => ([], rest)
  ((Decimal.read body).bind Binary.ofDecimal?).map fun b =>
    sign ++ if b.significand = 0 then utf8 "0" else decimalText b.shortest

def readInt? (literal : Bytes) : Option Int :=
  let n? : Option Int := match literal with
    | 0x2d :: rest => (Bytes.readDigits 10 rest).map fun n => -(n : Int)
    | rest => (Bytes.readDigits 10 rest).map Int.ofNat
  n?.bind fun n => if Int64.minValue.toInt ≤ n && n ≤ Int64.maxValue.toInt then some n else none

end Json
end DeviceTree
