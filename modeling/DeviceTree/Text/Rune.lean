import DeviceTree.Bytes

namespace DeviceTree.Text

inductive Rune where
  | scalar (code : Nat)
  | stray (byte : UInt8)
  deriving DecidableEq, Repr

def replacement : Nat := 0xfffd

def Rune.code : Rune → Nat
  | .scalar code => code
  | .stray _ => replacement

def isContinuation (b : UInt8) : Bool := 0x80 ≤ b && b ≤ 0xbf

-- The second byte of a three- or four-byte sequence is narrower after some first bytes:
-- no overlong form, no surrogate, nothing above U+10FFFF.
def secondAllowed (first second : UInt8) : Bool :=
  if first = 0xe0 then 0xa0 ≤ second && second ≤ 0xbf
  else if first = 0xed then 0x80 ≤ second && second ≤ 0x9f
  else if first = 0xf0 then 0x90 ≤ second && second ≤ 0xbf
  else if first = 0xf4 then 0x80 ≤ second && second ≤ 0x8f
  else isContinuation second

def payload (b : UInt8) : Nat := b.toNat % 64

def decodeAfter (a : UInt8) (rest : Bytes) : Rune × Nat :=
  if a < 0x80 then (.scalar a.toNat, 0)
  else match rest with
  | [] => (.stray a, 0)
  | b :: rest =>
    if 0xc2 ≤ a && a ≤ 0xdf then
      if isContinuation b then (.scalar (a.toNat % 32 * 64 + payload b), 1) else (.stray a, 0)
    else match rest with
    | [] => (.stray a, 0)
    | c :: rest =>
      if 0xe0 ≤ a && a ≤ 0xef then
        if secondAllowed a b && isContinuation c then
          (.scalar (a.toNat % 16 * 4096 + payload b * 64 + payload c), 2)
        else (.stray a, 0)
      else match rest with
      | [] => (.stray a, 0)
      | d :: _ =>
        if 0xf0 ≤ a && a ≤ 0xf4 && secondAllowed a b && isContinuation c && isContinuation d then
          (.scalar (a.toNat % 8 * 262144 + payload b * 4096 + payload c * 64 + payload d), 3)
        else (.stray a, 0)

def decode : Bytes → List Rune
  | [] => []
  | a :: rest =>
    let (rune, more) := decodeAfter a rest
    rune :: decode (rest.drop more)
termination_by text => text.length
decreasing_by simp only [List.length_drop, List.length_cons]; omega

def encodeCode (code : Nat) : Bytes :=
  if code < 0x80 then [code.toUInt8]
  else if code < 0x800 then [(0xc0 + code / 64).toUInt8, (0x80 + code % 64).toUInt8]
  else if 0xd800 ≤ code && code ≤ 0xdfff || 0x110000 ≤ code then [0xef, 0xbf, 0xbd]
  else if code < 0x10000 then
    [(0xe0 + code / 4096).toUInt8, (0x80 + code / 64 % 64).toUInt8, (0x80 + code % 64).toUInt8]
  else
    [(0xf0 + code / 262144).toUInt8, (0x80 + code / 4096 % 64).toUInt8,
      (0x80 + code / 64 % 64).toUInt8, (0x80 + code % 64).toUInt8]

def Rune.encode : Rune → Bytes
  | .scalar code => encodeCode code
  | .stray byte => [byte]

def encode (runes : List Rune) : Bytes := runes.flatMap Rune.encode

def Rune.isStray : Rune → Bool
  | .scalar _ => false
  | .stray _ => true

def isWellFormed (text : Bytes) : Bool := (decode text).all (! ·.isStray)

def Rune.isSpace : Rune → Bool
  | .stray _ => false
  | .scalar c =>
    (0x09 ≤ c && c ≤ 0x0d) || c == 0x20 || c == 0x85 || c == 0xa0 || c == 0x1680 ||
      (0x2000 ≤ c && c ≤ 0x200a) || c == 0x2028 || c == 0x2029 || c == 0x202f ||
      c == 0x205f || c == 0x3000

def trimSpace (text : Bytes) : Bytes :=
  encode (((decode text).dropWhile Rune.isSpace).reverse.dropWhile Rune.isSpace).reverse

def fields (text : Bytes) : List Bytes :=
  let close (word : List Rune) (words : List Bytes) :=
    if word.isEmpty then words else encode word.reverse :: words
  let (word, words) := (decode text).foldl
    (fun (word, words) r => if r.isSpace then ([], close word words) else (r :: word, words))
    (([] : List Rune), ([] : List Bytes))
  (close word words).reverse

end DeviceTree.Text
