import DeviceTree.Bytes

namespace DeviceTree

structure Decimal where
  digits : Nat
  exponent : Int
  deriving DecidableEq, Repr

namespace Decimal

def isExponentMark (b : UInt8) : Bool := b == 0x65 || b == 0x45
def isSign (b : UInt8) : Bool := b == 0x2b || b == 0x2d

def readExponent : Bytes → Option Int
  | [] => some 0
  | mark :: rest =>
    if isExponentMark mark then
      match rest with
      | sign :: digits =>
        if isSign sign then
          (Bytes.readDigits 10 digits).map fun n => if sign = 0x2d then -(n : Int) else n
        else (Bytes.readDigits 10 rest).map Int.ofNat
      | [] => none
    else none

-- Digits, a point, digits, an exponent: at least one digit, and the exponent may be absent.
def read (text : Bytes) : Option Decimal :=
  let whole := text.takeWhile Bytes.isDigit
  let rest := text.dropWhile Bytes.isDigit
  let (fraction, rest) := match rest with
    | 0x2e :: rest => (rest.takeWhile Bytes.isDigit, rest.dropWhile Bytes.isDigit)
    | rest => ([], rest)
  match Bytes.readDigits 10 (whole ++ fraction), readExponent rest with
  | some digits, some exponent => some ⟨digits, exponent - fraction.length⟩
  | _, _ => none

def roundQuotient (num den : Nat) : Nat :=
  let q := num / den
  let twice := 2 * (num % den)
  if twice < den then q
  else if twice > den then q + 1
  else if q % 2 = 0 then q else q + 1

def truncatedRounding (num den : Nat) : Nat :=
  let below (l : Int) : Bool :=
    if 0 ≤ l then num < den <<< l.toNat else num <<< (-l).toNat < den
  let guess : Int := (Nat.log2 num : Int) - Nat.log2 den
  let exponent := (if below guess then guess - 1 else guess) - 52
  if 0 ≤ exponent then roundQuotient num (den <<< exponent.toNat) <<< exponent.toNat
  else roundQuotient (num <<< (-exponent).toNat) den >>> (-exponent).toNat

-- The whole part of the rounded number. One that needs a binary exponent above 1023 is
-- refused.
def whole? (d : Decimal) : Option Nat :=
  if d.digits = 0 then some 0
  else
    let magnitude := d.exponent + (Bytes.decimal d.digits).length
    if magnitude > 310 then none
    else if magnitude < -1 then some 0
    else
      let whole :=
        if 0 ≤ d.exponent then truncatedRounding (d.digits * Nat.pow 10 d.exponent.toNat) 1
        else truncatedRounding d.digits (Nat.pow 10 (-d.exponent).toNat)
      if whole ≥ 1 <<< 1024 then none else some whole

-- The word of the numeral. A number too large for a word gives the least word.
def toInt64 (d : Decimal) : Option Int64 :=
  d.whole?.map fun whole =>
    if whole ≥ 1 <<< 63 then Int64.minValue else Int64.ofNat whole

end Decimal
end DeviceTree
