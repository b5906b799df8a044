import DeviceTree.Bytes

namespace DeviceTree.Uri

def isSchemeByte (b : UInt8) : Bool :=
  Bytes.isLetter b || Bytes.isDigit b || b == 0x2b || b == 0x2d || b == 0x2e

def splitScheme? (uri : Bytes) : Option (Bytes × Bytes) :=
  match uri, uri.dropWhile isSchemeByte with
  | first :: _, 0x3a :: rest =>
    if Bytes.isLetter first then some (Bytes.toLower (uri.takeWhile isSchemeByte), rest) else none
  | _, _ => none

def isControl (b : UInt8) : Bool := b < 0x20 || b == 0x7f

def unescape : Bytes → Option Bytes
  | [] => some []
  | 0x25 :: a :: b :: rest =>
    match Bytes.digitValue a, Bytes.digitValue b with
    | some x, some y => (unescape rest).map ((x * 16 + y).toUInt8 :: ·)
    | _, _ => none
  | b :: rest => if b = 0x25 then none else (unescape rest).map (b :: ·)

def isUnreserved (b : UInt8) : Bool :=
  Bytes.isLetter b || Bytes.isDigit b || b == 0x2d || b == 0x2e || b == 0x5f || b == 0x7e

def isHostMark (b : UInt8) : Bool := (utf8 "!$&'()*+,;=:[]<>\"").elem b

def isHostByte (b : UInt8) : Bool := 0x80 ≤ b || isUnreserved b || isHostMark b

def isHost : Bytes → Bool
  | [] => true
  | 0x25 :: a :: b :: rest =>
    (match Bytes.digitValue a, Bytes.digitValue b with
    | some x, some y => 8 ≤ x || (x == 2 && y == 5)
    | _, _ => false) && isHost rest
  | b :: rest => b != 0x25 && isHostByte b && isHost rest

def isZone : Bytes → Bool
  | [] => true
  | 0x25 :: a :: b :: rest =>
    (match Bytes.digitValue a, Bytes.digitValue b with
    | some x, some y =>
      let v := (x * 16 + y).toUInt8
      v == 0x25 || v == 0x20 || (v < 0x80 && isHostByte v)
    | _, _ => false) && isZone rest
  | b :: rest => b != 0x25 && isHostByte b && isZone rest

def isPort : Bytes → Bool
  | [] => true
  | b :: rest => b == 0x3a && rest.all Bytes.isDigit

def splitLast (sep : UInt8) (text : Bytes) : Option (Bytes × Bytes) :=
  if text.elem sep then
    let tail := (text.reverse.takeWhile (· != sep)).reverse
    some (text.take (text.length - tail.length - 1), sep :: tail)
  else none

def isHostPort (text : Bytes) : Bool :=
  if text.elem 0x5b then
    match splitLast 0x5d text with
    | none => false
    | some (address, tail) =>
      isPort (tail.drop 1) &&
        match Bytes.find (utf8 "%25") address with
        | some zone => isHost (address.take zone) && isZone (address.drop zone) && isHost tail
        | none => isHost text
  else
    match splitLast 0x3a text with
    | some (_, port) => isPort port && isHost text
    | none => isHost text

def isUserByte (b : UInt8) : Bool :=
  isUnreserved b || (utf8 ":!$&'()*+,;=%@").elem b

def isUser (text : Bytes) : Bool := text.all isUserByte && (unescape text).isSome

def isAuthority (text : Bytes) : Bool :=
  match splitLast 0x40 text with
  | none => isHostPort text
  | some (user, host) => isHostPort (host.drop 1) && isUser user

def pathOf? (rest : Bytes) : Option Bytes :=
  let rest := Bytes.before 0x3f rest
  match rest with
  | 0x2f :: 0x2f :: rest =>
    let authority := Bytes.before 0x2f rest
    if isAuthority authority then unescape (rest.drop authority.length) else none
  | 0x2f :: _ => unescape rest
  | _ => some []

def filePath? (uri : Bytes) : Option Bytes :=
  let main := Bytes.before 0x23 uri
  let fragment := uri.drop (main.length + 1)
  match splitScheme? main with
  | some (scheme, rest) =>
    if scheme = utf8 "file" && !main.any isControl && (unescape fragment).isSome then pathOf? rest
    else none
  | none => none

def toPath (uri : Bytes) : Bytes :=
  match filePath? uri with
  | some path => path
  | none => Bytes.trimLead (utf8 "file://") uri

def isPathByte (b : UInt8) : Bool := isUnreserved b || (utf8 "$&+,/:;=@").elem b

def upperHex (n : Nat) : UInt8 := if n < 10 then (0x30 + n).toUInt8 else (0x41 + n - 10).toUInt8

def escapeByte (b : UInt8) : Bytes :=
  if isPathByte b then [b] else [0x25, upperHex (b.toNat / 16), upperHex (b.toNat % 16)]

def ofPath (path : Bytes) : Bytes :=
  if path = [] then utf8 "file:"
  else if path = utf8 "*" then utf8 "file://*"
  else utf8 "file://" ++ path.flatMap escapeByte

end DeviceTree.Uri
