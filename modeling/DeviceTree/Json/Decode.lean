import DeviceTree.Json.Number
import DeviceTree.Text.Rune

namespace DeviceTree.Json

def foldRune : Text.Rune → Bytes
  | .scalar 0x17f => utf8 "s"
  | .scalar 0x212a => utf8 "k"
  | r => Bytes.toLower r.encode

def foldName (name : Bytes) : Bytes := (Text.decode name).flatMap foldRune

def decodeObject (field : α → (name : Bytes) → Json → Option α) (start : α) : Json → Option α
  | .null => some start
  | .object members => members.foldlM (fun a (name, v) => field a (foldName name) v) start
  | _ => none

def decodeText (old : Bytes) : Json → Option Bytes
  | .null => some old
  | .string s => some s
  | _ => none

def decodeInt (old : Int) : Json → Option Int
  | .null => some old
  | .number literal => readInt? literal
  | _ => none

def decodeBool (old : Bool) : Json → Option Bool
  | .null => some old
  | .bool b => some b
  | _ => none

def decodeItems (item : α → Json → Option α) (blank : α) : List α → List Json → Option (List α)
  | _, [] => some []
  | old, v :: rest =>
    match item (old.headD blank) v, decodeItems item blank old.tail rest with
    | some a, some more => some (a :: more)
    | _, _ => none

def decodeList (item : α → Json → Option α) (blank : α) (old : List α) : Json → Option (List α)
  | .null => some []
  | .array items => decodeItems item blank old items
  | _ => none

def insertMember (name : Bytes) (v : Json) : List (Bytes × Json) → List (Bytes × Json)
  | [] => [(name, v)]
  | (other, w) :: rest =>
    if name = other then (name, v) :: rest
    else if Bytes.le name other then (name, v) :: (other, w) :: rest
    else (other, w) :: insertMember name v rest

mutual

def decodeAny : Json → Option Json
  | .number literal => (roundTrip? literal).map .number
  | .array items => (decodeAnyItems items).map .array
  | .object members => (decodeAnyMembers members []).map .object
  | v => some v

def decodeAnyItems : List Json → Option (List Json)
  | [] => some []
  | v :: rest =>
    match decodeAny v, decodeAnyItems rest with
    | some v, some more => some (v :: more)
    | _, _ => none

def decodeAnyMembers : List (Bytes × Json) → List (Bytes × Json) → Option (List (Bytes × Json))
  | [], done => some done
  | (name, v) :: rest, done =>
    match decodeAny v with
    | some v => decodeAnyMembers rest (insertMember name v done)
    | none => none

end

end DeviceTree.Json
