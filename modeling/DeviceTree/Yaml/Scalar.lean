import DeviceTree.Text.Rune
import DeviceTree.Yaml.Basic

namespace DeviceTree.Yaml

def isBlankByte (b : UInt8) : Bool := b == 0x20 || b == 0x09

-- Drops the line break and the blanks around it: one break is a space, more are one fewer.
def foldBreak (written : Bytes) (rest : Bytes) : Bytes × Bytes :=
  let blanks := rest.takeWhile fun b => isBlankByte b || b == 0x0a
  let breaks := blanks.count 0x0a
  let gap := if breaks ≤ 1 then utf8 " " else List.replicate (breaks - 1) 0x0a
  (Bytes.trimRight isBlankByte written ++ gap, rest.drop blanks.length)

def singleQuoted : (fuel : Nat) → (written : Bytes) → Bytes → Option (Bytes × Bytes)
  | 0, _, _ => none
  | fuel + 1, written, text =>
    match text with
    | 0x27 :: 0x27 :: rest => singleQuoted fuel (written ++ [0x27]) rest
    | 0x27 :: rest => some (written, rest)
    | 0x0a :: rest =>
      let (written, rest) := foldBreak written (0x0a :: rest)
      singleQuoted fuel written rest
    | b :: rest => singleQuoted fuel (written ++ [b]) rest
    | [] => none

def escape (letter : UInt8) : Option (Bytes ⊕ Nat) :=
  match Char.ofUInt8 letter with
  | '0' => some (.inl [0x00])
  | 'a' => some (.inl [0x07])
  | 'b' => some (.inl [0x08])
  | 't' | '\t' => some (.inl [0x09])
  | 'n' => some (.inl [0x0a])
  | 'v' => some (.inl [0x0b])
  | 'f' => some (.inl [0x0c])
  | 'r' => some (.inl [0x0d])
  | 'e' => some (.inl [0x1b])
  | ' ' => some (.inl [0x20])
  | '"' => some (.inl [0x22])
  | '\'' => some (.inl [0x27])
  | '/' => some (.inl [0x2f])
  | '\\' => some (.inl [0x5c])
  | 'N' => some (.inl (Text.encodeCode 0x85))
  | '_' => some (.inl (Text.encodeCode 0xa0))
  | 'L' => some (.inl (Text.encodeCode 0x2028))
  | 'P' => some (.inl (Text.encodeCode 0x2029))
  | 'x' => some (.inr 2)
  | 'u' => some (.inr 4)
  | 'U' => some (.inr 8)
  | _ => none

def isCodePoint (code : Nat) : Bool := code < 0xd800 || (0xe000 ≤ code && code < 0x110000)

def doubleQuoted : (fuel : Nat) → (written : Bytes) → Bytes → Option (Bytes × Bytes)
  | 0, _, _ => none
  | fuel + 1, written, text =>
    match text with
    | 0x22 :: rest => some (written, rest)
    | 0x5c :: 0x0a :: rest => doubleQuoted fuel written (rest.dropWhile isBlankByte)
    | 0x5c :: letter :: rest =>
      (match escape letter with
      | some (.inl bytes) => doubleQuoted fuel (written ++ bytes) rest
      | some (.inr digits) =>
        let found := rest.take digits
        if found.length < digits then none
        else match Bytes.readDigits 16 found with
          | some code =>
            if isCodePoint code then
              doubleQuoted fuel (written ++ Text.encodeCode code) (rest.drop digits)
            else none
          | none => none
      | none => none)
    | 0x0a :: rest =>
      let (written, rest) := foldBreak written (0x0a :: rest)
      doubleQuoted fuel written rest
    | b :: rest => doubleQuoted fuel (written ++ [b]) rest
    | [] => none

def quoted (text : Bytes) : Option (Bytes × Bytes) :=
  match text with
  | 0x27 :: rest => singleQuoted (rest.length + 1) [] rest
  | 0x22 :: rest => doubleQuoted (rest.length + 1) [] rest
  | _ => none

def magnitude (text : Bytes) : Option Nat :=
  match text with
  | 0x30 :: 0x78 :: digits | 0x30 :: 0x58 :: digits => Bytes.readDigits 16 digits
  | 0x30 :: 0x62 :: digits | 0x30 :: 0x42 :: digits => Bytes.readDigits 2 digits
  | 0x30 :: 0x6f :: digits | 0x30 :: 0x4f :: digits => Bytes.readDigits 8 digits
  | 0x30 :: d :: digits => Bytes.readDigits 8 (d :: digits)
  | _ => Bytes.readDigits 10 text

def integer? (text : Bytes) : Option Int :=
  match text with
  | 0x2d :: digits => (magnitude digits).map fun n => -(n : Int)
  | 0x2b :: digits => (magnitude digits).map Int.ofNat
  | _ => (magnitude text).map Int.ofNat

def unsignedText (text : Bytes) : Bytes :=
  match text with
  | 0x2d :: rest | 0x2b :: rest => rest
  | _ => text

def isDecimal (text : Bytes) : Bool :=
  let text := unsignedText text
  let whole := text.takeWhile Bytes.isDigit
  let rest := text.drop whole.length
  let (fraction, rest) := match rest with
    | 0x2e :: rest => (rest.takeWhile Bytes.isDigit, rest.dropWhile Bytes.isDigit)
    | rest => ([], rest)
  let exponent := match rest with
    | [] => true
    | mark :: rest =>
      (mark == 0x65 || mark == 0x45) && (Bytes.readDigits 10 (unsignedText rest)).isSome
  !(whole.isEmpty && fraction.isEmpty) && exponent

-- The largest integers that a machine word holds; a wider one is only read in decimal.
def fitsWord (n : Int) : Bool := Int64.minValue.toInt ≤ n && n < UInt64.size

def ofPlain (text : Bytes) : Yaml :=
  if [utf8 "", utf8 "~", utf8 "null", utf8 "Null", utf8 "NULL"].elem text then .null
  else if [utf8 "true", utf8 "True", utf8 "TRUE"].elem text then .bool true
  else if [utf8 "false", utf8 "False", utf8 "FALSE"].elem text then .bool false
  else
    let special := [".nan", ".NaN", ".NAN", ".inf", ".Inf", ".INF", "+.inf", "+.Inf", "+.INF",
      "-.inf", "-.Inf", "-.INF"].map utf8
    if special.elem text then .float text
    else match text with
      | [] => .null
      | b :: _ =>
        let number := text.filter (· != 0x5f)
        if Bytes.isDigit b || b == 0x2b || b == 0x2d then
          match integer? number with
          | some n => if fitsWord n || isDecimal number then .int n else .string text
          | none => if isDecimal number then .float number else .string text
        else if b == 0x2e && isDecimal text then .float text
        else .string text

end DeviceTree.Yaml
