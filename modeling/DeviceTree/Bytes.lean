
namespace DeviceTree

abbrev Bytes := List UInt8

def utf8 (text : String) : Bytes := text.toByteArray.data.toList

namespace Bytes

def isDigit (b : UInt8) : Bool := 0x30 ≤ b && b ≤ 0x39
def isLower (b : UInt8) : Bool := 0x61 ≤ b && b ≤ 0x7a
def isUpper (b : UInt8) : Bool := 0x41 ≤ b && b ≤ 0x5a
def isLetter (b : UInt8) : Bool := isLower b || isUpper b
def isHexDigit (b : UInt8) : Bool :=
  isDigit b || (0x61 ≤ b && b ≤ 0x66) || (0x41 ≤ b && b ≤ 0x46)
def isWord (b : UInt8) : Bool := isLetter b || isDigit b || b == 0x5f
def isSpaceOrTab (b : UInt8) : Bool := b == 0x20 || b == 0x09

def lower (b : UInt8) : UInt8 := if isUpper b then b + 0x20 else b
def toLower (text : Bytes) : Bytes := text.map lower

def digitValue (b : UInt8) : Option Nat :=
  if isDigit b then some (b.toNat - 0x30)
  else if isHexDigit b then some ((lower b).toNat - 0x61 + 10)
  else none

def readDigits (base : Nat) (text : Bytes) : Option Nat :=
  if text.isEmpty then none
  else text.foldlM (fun value b =>
    match digitValue b with
    | some d => if d < base then some (value * base + d) else none
    | none => none) 0

def readUInt64 (base : Nat) (text : Bytes) : Option UInt64 :=
  match readDigits base text with
  | some n => if n < UInt64.size then some n.toUInt64 else none
  | none => none

def decimal (n : Nat) : Bytes := (Nat.toDigits 10 n).map Char.toUInt8
def hex (n : Nat) : Bytes := (Nat.toDigits 16 n).map Char.toUInt8
def signed : Int → Bytes
  | .ofNat n => decimal n
  | .negSucc n => 0x2d :: decimal (n + 1)

def padLeft (width : Nat) (fill : UInt8) (text : Bytes) : Bytes :=
  List.replicate (width - text.length) fill ++ text
def hexPadded (width n : Nat) : Bytes := padLeft width 0x30 (hex n)

def dropLead? : (lead : Bytes) → (text : Bytes) → Option Bytes
  | [], text => some text
  | _ :: _, [] => none
  | a :: lead, b :: text => if a = b then dropLead? lead text else none

def startsWith (text lead : Bytes) : Bool := (dropLead? lead text).isSome

def dropTail? (tail text : Bytes) : Option Bytes :=
  (dropLead? tail.reverse text.reverse).map List.reverse

def endsWith (text tail : Bytes) : Bool := (dropTail? tail text).isSome

def trimLead (lead text : Bytes) : Bytes := (dropLead? lead text).getD text
def trimTail (tail text : Bytes) : Bytes := (dropTail? tail text).getD text

def cut (sep : UInt8) : Bytes → Option (Bytes × Bytes)
  | [] => none
  | b :: rest =>
    if b = sep then some ([], rest)
    else match cut sep rest with
      | some (before, after) => some (b :: before, after)
      | none => none

def before (sep : UInt8) (text : Bytes) : Bytes := text.takeWhile (· != sep)

def find (part : Bytes) : Bytes → Option Nat
  | [] => if part.isEmpty then some 0 else none
  | b :: rest => if startsWith (b :: rest) part then some 0 else (find part rest).map (· + 1)

def hasPart (text part : Bytes) : Bool := (find part text).isSome

def split (sep : UInt8) : Bytes → List Bytes
  | [] => [[]]
  | b :: rest =>
    if b = sep then [] :: split sep rest
    else match split sep rest with
      | piece :: pieces => (b :: piece) :: pieces
      | [] => [[b]]

def join (sep : Bytes) : List Bytes → Bytes
  | [] => []
  | [piece] => piece
  | piece :: pieces => piece ++ sep ++ join sep pieces

def joinLines (lines : List Bytes) : Bytes := join [0x0a] lines

def trimLeft (p : UInt8 → Bool) (text : Bytes) : Bytes := text.dropWhile p
def trimRight (p : UInt8 → Bool) (text : Bytes) : Bytes := (text.reverse.dropWhile p).reverse
def trim (p : UInt8 → Bool) (text : Bytes) : Bytes := trimRight p (trimLeft p text)

def replaceByte (old : UInt8) (new : Bytes) (text : Bytes) : Bytes :=
  text.flatMap fun b => if b = old then new else [b]

-- Bytewise order: at the first difference the smaller byte comes first, and a text comes
-- after every text it extends.
def le : Bytes → Bytes → Bool
  | [], _ => true
  | _ :: _, [] => false
  | a :: s, b :: t => if a < b then true else if b < a then false else le s t

def sort (texts : List Bytes) : List Bytes := texts.mergeSort le

end Bytes
end DeviceTree
