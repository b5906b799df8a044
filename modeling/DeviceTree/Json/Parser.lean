import DeviceTree.Json.Basic
import DeviceTree.Text.Quoted

namespace DeviceTree.Json

def isBlank (b : UInt8) : Bool := b == 0x20 || b == 0x09 || b == 0x0a || b == 0x0d

def skipBlanks (text : Bytes) : Bytes := text.dropWhile isBlank

def isSurrogate (code : Nat) : Bool := 0xd800 ≤ code && code < 0xe000

def pair? (high low : Nat) : Option Nat :=
  if 0xd800 ≤ high && high < 0xdc00 && 0xdc00 ≤ low && low < 0xe000 then
    some (0x10000 + (high - 0xd800) * 0x400 + (low - 0xdc00))
  else none

def lowSurrogate? : Bytes → Option Nat
  | 0x5c :: 0x75 :: rest => Text.takeDigits 16 4 rest
  | _ => none

def readEscape : Bytes → Option (Bytes × Nat)
  | [] => none
  | letter :: rest =>
    match Char.ofUInt8 letter with
    | '"' | '\\' | '/' => some ([letter], 1)
    | 'b' => some ([0x08], 1)
    | 'f' => some ([0x0c], 1)
    | 'n' => some ([0x0a], 1)
    | 'r' => some ([0x0d], 1)
    | 't' => some ([0x09], 1)
    | 'u' => (Text.takeDigits 16 4 rest).map fun code =>
      if isSurrogate code then
        match (lowSurrogate? (rest.drop 4)).bind (pair? code) with
        | some joined => (Text.encodeCode joined, 11)
        | none => (Text.encodeCode Text.replacement, 5)
      else (Text.encodeCode code, 5)
    | _ => none

def readString : Bytes → Option (Bytes × Bytes)
  | [] => none
  | a :: rest =>
    if a = 0x22 then some ([], rest)
    else if a = 0x5c then
      match readEscape rest with
      | some (bytes, more) => (readString (rest.drop more)).map fun (s, rest) => (bytes ++ s, rest)
      | none => none
    else if a < 0x20 then none
    else
      let (rune, more) := Text.decodeAfter a rest
      (readString (rest.drop more)).map fun (s, rest) => (Text.encodeCode rune.code ++ s, rest)
termination_by text => text.length
decreasing_by all_goals (simp only [List.length_drop, List.length_cons]; omega)

def readDigits (text : Bytes) : Option (Bytes × Bytes) :=
  let digits := text.takeWhile Bytes.isDigit
  if digits.isEmpty then none else some (digits, text.dropWhile Bytes.isDigit)

def readWhole : Bytes → Option (Bytes × Bytes)
  | 0x30 :: rest => some ([0x30], rest)
  | text => readDigits text

def readFraction : Bytes → Option (Bytes × Bytes)
  | 0x2e :: rest => (readDigits rest).map fun (digits, rest) => (0x2e :: digits, rest)
  | text => some ([], text)

def readExponent : Bytes → Option (Bytes × Bytes)
  | mark :: rest =>
    if mark = 0x65 || mark = 0x45 then
      match rest with
      | 0x2b :: rest => (readDigits rest).map fun (digits, rest) => (mark :: 0x2b :: digits, rest)
      | 0x2d :: rest => (readDigits rest).map fun (digits, rest) => (mark :: 0x2d :: digits, rest)
      | rest => (readDigits rest).map fun (digits, rest) => (mark :: digits, rest)
    else some ([], mark :: rest)
  | [] => some ([], [])

def readNumber (text : Bytes) : Option (Bytes × Bytes) :=
  let (sign, rest) : Bytes × Bytes := match text with
    | 0x2d :: rest => ([0x2d], rest)
    | rest => ([], rest)
  match readWhole rest with
  | none => none
  | some (whole, rest) =>
    match readFraction rest with
    | none => none
    | some (fraction, rest) =>
      (readExponent rest).map fun (exponent, rest) => (sign ++ whole ++ fraction ++ exponent, rest)

def readAtom (text : Bytes) : Option (Json × Bytes) :=
  match Bytes.dropLead? (utf8 "null") text with
  | some rest => some (.null, rest)
  | none =>
    match Bytes.dropLead? (utf8 "true") text with
    | some rest => some (.bool true, rest)
    | none =>
      match Bytes.dropLead? (utf8 "false") text with
      | some rest => some (.bool false, rest)
      | none => (readNumber text).map fun (literal, rest) => (.number literal, rest)

mutual

def readValue : (fuel : Nat) → (depth : Nat) → Bytes → Option (Json × Bytes)
  | 0, _, _ => none
  | fuel + 1, depth, text =>
    match skipBlanks text, depth with
    | 0x22 :: rest, _ => (readString rest).map fun (s, rest) => (.string s, rest)
    | 0x5b :: _, 0 => none
    | 0x5b :: rest, depth + 1 =>
      (match skipBlanks rest with
      | 0x5d :: rest => some (.array [], rest)
      | rest => (readItems fuel depth rest).map fun (items, rest) => (.array items, rest))
    | 0x7b :: _, 0 => none
    | 0x7b :: rest, depth + 1 =>
      (match skipBlanks rest with
      | 0x7d :: rest => some (.object [], rest)
      | rest => (readMembers fuel depth rest).map fun (members, rest) => (.object members, rest))
    | rest, _ => readAtom rest

def readItems : (fuel : Nat) → (depth : Nat) → Bytes → Option (List Json × Bytes)
  | 0, _, _ => none
  | fuel + 1, depth, text =>
    match readValue fuel depth text with
    | none => none
    | some (v, rest) =>
      match skipBlanks rest with
      | 0x2c :: rest => (readItems fuel depth rest).map fun (items, rest) => (v :: items, rest)
      | 0x5d :: rest => some ([v], rest)
      | _ => none

def readMembers : (fuel : Nat) → (depth : Nat) → Bytes → Option (List (Bytes × Json) × Bytes)
  | 0, _, _ => none
  | fuel + 1, depth, text =>
    match skipBlanks text with
    | 0x22 :: rest =>
      (match readString rest with
      | none => none
      | some (name, rest) =>
        match skipBlanks rest with
        | 0x3a :: rest =>
          (match readValue fuel depth rest with
          | none => none
          | some (v, rest) =>
            match skipBlanks rest with
            | 0x2c :: rest =>
              (readMembers fuel depth rest).map fun (members, rest) => ((name, v) :: members, rest)
            | 0x7d :: rest => some ([(name, v)], rest)
            | _ => none)
        | _ => none)
    | _ => none

end

def maxDepth : Nat := 10000

-- Every two steps of the reader take at least one byte.
def parse (text : Bytes) : Option Json :=
  match readValue (2 * text.length + 2) maxDepth text with
  | some (v, rest) => if (skipBlanks rest).isEmpty then some v else none
  | none => none

end DeviceTree.Json
