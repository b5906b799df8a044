import DeviceTree.Text.Rune
import DeviceTree.Text.Printable

namespace DeviceTree.Text

def escapeLetter (code : Nat) : Option UInt8 :=
  match code with
  | 0x07 => some 0x61
  | 0x08 => some 0x62
  | 0x0c => some 0x66
  | 0x0a => some 0x6e
  | 0x0d => some 0x72
  | 0x09 => some 0x74
  | 0x0b => some 0x76
  | _ => none

def quoteRune : Rune → Bytes
  | .stray byte => utf8 "\\x" ++ Bytes.hexPadded 2 byte.toNat
  | .scalar code =>
    if code = 0x22 || code = 0x5c then [0x5c, code.toUInt8]
    else if isPrintable code then encodeCode code
    else match escapeLetter code with
      | some letter => [0x5c, letter]
      | none =>
        if code < 0x20 || code = 0x7f then utf8 "\\x" ++ Bytes.hexPadded 2 code
        else if code < 0x10000 then utf8 "\\u" ++ Bytes.hexPadded 4 code
        else utf8 "\\U" ++ Bytes.hexPadded 8 code

def quote (text : Bytes) : Bytes := [0x22] ++ (decode text).flatMap quoteRune ++ [0x22]

def letterByte (letter : UInt8) : Option UInt8 :=
  match Char.ofUInt8 letter with
  | 'a' => some 0x07
  | 'b' => some 0x08
  | 'f' => some 0x0c
  | 'n' => some 0x0a
  | 'r' => some 0x0d
  | 't' => some 0x09
  | 'v' => some 0x0b
  | _ => none

def isScalarCode (code : Nat) : Bool := code < 0xd800 || (0xe000 ≤ code && code < 0x110000)

def takeDigits (base count : Nat) (text : Bytes) : Option Nat :=
  let digits := text.take count
  if digits.length = count then Bytes.readDigits base digits else none

def escape (letter : UInt8) (rest : Bytes) : Option (Bytes × Nat) :=
  match letterByte letter with
  | some byte => some ([byte], 0)
  | none =>
    match Char.ofUInt8 letter with
    | '\\' => some ([0x5c], 0)
    | '"' => some ([0x22], 0)
    | 'x' => (takeDigits 16 2 rest).map fun v => ([v.toUInt8], 2)
    | 'u' => (takeDigits 16 4 rest).bind fun v =>
      if isScalarCode v then some (encodeCode v, 4) else none
    | 'U' => (takeDigits 16 8 rest).bind fun v =>
      if isScalarCode v then some (encodeCode v, 8) else none
    | _ =>
      if 0x30 ≤ letter && letter ≤ 0x37 then
        (takeDigits 8 3 (letter :: rest)).bind fun v =>
          if v ≤ 255 then some ([v.toUInt8], 2) else none
      else none

-- Reads the text between two quotes. A quote without a backslash, a line end and an escape
-- that is not one of the above are refused; a stray byte is read as U+FFFD.
def unescape : Bytes → Option Bytes
  | [] => some []
  | a :: rest =>
    if a = 0x5c then
      match rest with
      | [] => none
      | letter :: rest =>
        match escape letter rest with
        | some (bytes, more) => (unescape (rest.drop more)).map (bytes ++ ·)
        | none => none
    else if a = 0x22 || a = 0x0a then none
    else
      let (rune, more) := decodeAfter a rest
      (unescape (rest.drop more)).map (encodeCode rune.code ++ ·)
termination_by text => text.length
decreasing_by all_goals (simp only [List.length_drop, List.length_cons]; omega)

end DeviceTree.Text
