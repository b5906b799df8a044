import DeviceTree.Bytes

namespace DeviceTree.Suffix

def integral : List Bytes := [utf8 "ull", utf8 "ul", utf8 "ll", utf8 "u", utf8 "l"]
def general : List Bytes := integral ++ [utf8 "f"]

def isHexMark (b : UInt8) : Bool := b == 0x78 || b == 0x58

def hexLength : Bytes → Option Nat
  | 0x30 :: mark :: rest =>
    let digits := rest.takeWhile Bytes.isHexDigit
    if isHexMark mark && !digits.isEmpty then some (2 + digits.length) else none
  | _ => none

def exponentLength : Bytes → Nat
  | mark :: rest =>
    if mark = 0x65 || mark = 0x45 then
      let (sign, digits) := match rest with
        | s :: rest => if s = 0x2b || s = 0x2d then (1, rest) else (0, s :: rest)
        | [] => (0, [])
      let count := (digits.takeWhile Bytes.isDigit).length
      if count = 0 then 0 else 1 + sign + count
    else 0
  | [] => 0

def fractionLength : Bytes → Nat
  | 0x2e :: rest => 1 + (rest.takeWhile Bytes.isDigit).length
  | _ => 0

def decimalLength (text : Bytes) : Nat :=
  let whole := (text.takeWhile Bytes.isDigit).length
  let fraction := fractionLength (text.drop whole)
  whole + fraction + exponentLength (text.drop (whole + fraction))

def suffixLength (allowed : List Bytes) (text : Bytes) : Option Nat :=
  let word := text.takeWhile Bytes.isWord
  if allowed.contains (Bytes.toLower word) then some word.length else none

def split? (text : Bytes) : Option (Nat × Nat) :=
  let inHex := (hexLength text).bind fun n => (suffixLength integral (text.drop n)).map (n, ·)
  match inHex with
  | some found => some found
  | none =>
    let n := decimalLength text
    (suffixLength general (text.drop n)).map (n, ·)

-- A numeral begins at a digit that does not continue a word.
def stripAfter (inWord : Bool) : Bytes → Bytes
  | [] => []
  | b :: rest =>
    if !inWord && Bytes.isDigit b then
      match split? (b :: rest) with
      | some (body, tail) =>
        (b :: rest).take body ++ stripAfter true (rest.drop (body + tail - 1))
      | none => b :: stripAfter (Bytes.isWord b) rest
    else b :: stripAfter (Bytes.isWord b) rest
termination_by text => text.length
decreasing_by all_goals (simp only [List.length_drop, List.length_cons]; omega)

def strip (text : Bytes) : Bytes := stripAfter false text

end DeviceTree.Suffix
