import DeviceTree.Disk
import DeviceTree.Expr.Decimal
import DeviceTree.Yaml.Parser

namespace DeviceTree

structure Board where
  identifier : Bytes
  name : Bytes
  type : Bytes
  arch : Bytes
  toolchain : List Bytes
  ram : Int
  flash : Int
  supported : List Bytes
  deriving DecidableEq, Repr

namespace Board

inductive Problem where
  | malformed
  | mistyped
  | empty
  | noIdentifier
  deriving DecidableEq, Repr

def Problem.message : Problem → Bytes
  | .malformed => utf8 "malformed board file"
  | .mistyped => utf8 "board file has a wrong key or value"
  | .empty => utf8 "empty board file"
  | .noIdentifier => utf8 "board file has no identifier"

def none : Board := ⟨[], [], [], [], [], 0, 0, []⟩

def readText (old : Bytes) : Yaml.Node → Option Bytes
  | .text s => some s
  | .plain s => if Yaml.ofPlain s == .null then some old else some s
  | _ => Option.none

def wordMin : Int := Int64.minValue.toInt

-- A number with a fraction is cut to its whole part. Below the least word it is that word.
def readFraction (text : Bytes) : Option Int :=
  let negative : Bool := text.head? == some 0x2d
  if text.getLast? == some 0x66 || text.getLast? == some 0x46 then
    if negative then some wordMin else Option.none
  else
    match ((Decimal.read (Yaml.unsignedText text)).bind Decimal.whole?), negative with
    | some n, true => some (max wordMin (-(n : Int)))
    | some n, false => if n < 1 <<< 63 then some n else if n = 1 <<< 63 then some wordMin else Option.none
    | Option.none, _ => Option.none

def readSize (old : Int) : Yaml.Node → Option Int
  | .plain s =>
    match Yaml.ofPlain s with
    | .null => some old
    | .int n => if n ≤ Int64.maxValue.toInt then some (max wordMin n) else Option.none
    | .float f => readFraction f
    | _ => Option.none
  | _ => Option.none

def isNull : Yaml.Node → Bool
  | .plain s => Yaml.ofPlain s == .null
  | _ => false

def readTexts : Yaml.Node → Option (List Bytes)
  | .seq items => (items.filter (!isNull ·)).mapM (readText [])
  | v => if isNull v then some [] else Option.none

def readField (b : Board) (key : Bytes) (v : Yaml.Node) : Option Board :=
  if key = utf8 "identifier" then (readText b.identifier v).map fun x => { b with identifier := x }
  else if key = utf8 "name" then (readText b.name v).map fun x => { b with name := x }
  else if key = utf8 "type" then (readText b.type v).map fun x => { b with type := x }
  else if key = utf8 "arch" then (readText b.arch v).map fun x => { b with arch := x }
  else if key = utf8 "toolchain" then (readTexts v).map fun x => { b with toolchain := x }
  else if key = utf8 "ram" then (readSize b.ram v).map fun x => { b with ram := x }
  else if key = utf8 "flash" then (readSize b.flash v).map fun x => { b with flash := x }
  else if key = utf8 "supported" then (readTexts v).map fun x => { b with supported := x }
  else Option.none

def ofNode : Yaml.Node → Option Board
  | .map entries =>
    if Yaml.hasRepeat (entries.map Prod.fst) then Option.none
    else entries.foldlM (fun b (key, v) => readField b key v) none
  | v => if isNull v then some none else Option.none

def parse (text : Bytes) : Except Problem Board :=
  match Yaml.parse text with
  | .absent => .error .empty
  | .malformed => .error .malformed
  | .document node _ =>
    match ofNode node with
    | some b => if Text.trimSpace b.identifier = [] then .error .noIdentifier else .ok b
    | Option.none => .error .mistyped

inductive LoadError where
  | unreadable (cause : ReadError)
  | refused (path : Bytes) (problem : Problem)
  deriving DecidableEq, Repr

def LoadError.message : LoadError → Bytes
  | .unreadable cause => utf8 "reading board file: " ++ cause.message
  | .refused path problem => path ++ utf8 ": " ++ problem.message

def load (d : Disk) (path : Bytes) : Except LoadError Board :=
  match d.read path with
  | .error cause => .error (.unreadable cause)
  | .ok text =>
    match parse text with
    | .ok b => .ok b
    | .error p => .error (.refused path p)

def supports (b : Board) (feature : Bytes) : Bool := b.supported.elem feature

def summary (b : Board) : Bytes :=
  b.identifier ++
    (if b.name = [] then [] else utf8 " (" ++ b.name ++ utf8 ")") ++
    (if b.arch = [] then [] else utf8 " arch=" ++ b.arch) ++
    (if b.ram > 0 then utf8 " ram=" ++ Bytes.signed b.ram ++ utf8 "K" else []) ++
    (if b.flash > 0 then utf8 " flash=" ++ Bytes.signed b.flash ++ utf8 "K" else [])

end Board
end DeviceTree
