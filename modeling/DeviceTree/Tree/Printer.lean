import DeviceTree.Tree.Merge

namespace DeviceTree
namespace Printer

inductive Cells where
  | evaluated | raw
  deriving DecidableEq, Repr

def stringByte (b : UInt8) : Bytes :=
  match Char.ofUInt8 b with
  | '"' => utf8 "\\\""
  | '\\' => utf8 "\\\\"
  | '\n' => utf8 "\\n"
  | '\t' => utf8 "\\t"
  | '\r' => utf8 "\\r"
  | _ => if b < 0x20 || b = 0x7f then utf8 "\\x" ++ Bytes.hexPadded 2 b.toNat else [b]

def string (text : Bytes) : Bytes := utf8 "\"" ++ text.flatMap stringByte ++ utf8 "\""

-- Of a value only the bits of the cell width are written.
def cell (mode : Cells) (width : Width) : Cell → Bytes
  | .ref r => r.text
  | .int _ raw value =>
    match mode, value with
    | .evaluated, some v => utf8 "0x" ++ Bytes.hex (v.toUInt64.toNat % Nat.pow 2 width.bits)
    | _, _ => raw

def array (mode : Cells) (a : CellArray) : Bytes :=
  let text := utf8 "<" ++ Bytes.join (utf8 " ") (a.cells.map (cell mode a.width)) ++ utf8 ">"
  if a.width = .w32 then text
  else utf8 "/bits/ " ++ Bytes.decimal a.width.bits ++ utf8 " " ++ text

def value (mode : Cells) : Value → Bytes
  | .string _ text => string text
  | .bytes _ bytes =>
    utf8 "[" ++ Bytes.join (utf8 " ") (bytes.map fun b => Bytes.hexPadded 2 b.toNat) ++ utf8 "]"
  | .array a => array mode a
  | .ref r => r.text

def property (mode : Cells) (indent : Bytes) (p : Property) : Bytes :=
  match p.values with
  | [] => indent ++ p.name ++ utf8 ";\n"
  | values =>
    indent ++ p.name ++ utf8 " = " ++ Bytes.join (utf8 ", ") (values.map (value mode)) ++
      utf8 ";\n"

def node (mode : Cells) (s : Store) : (fuel : Nat) → (indent : Bytes) → NodeId → Bytes
  | 0, _, _ => []
  | fuel + 1, indent, id =>
    let n := s.node id
    let inner := indent ++ utf8 "\t"
    let properties := n.properties.flatMap (property mode inner)
    let children := n.children.zipIdx.flatMap fun (c, i) =>
      (if i > 0 || !n.properties.isEmpty then utf8 "\n" else []) ++ node mode s fuel inner c
    indent ++ n.labels.flatMap (· ++ utf8 ": ") ++ n.name ++ utf8 " \x7b\n" ++ properties ++
      children ++ indent ++ utf8 "\x7d;\n"

end Printer

namespace Tree

def printNode (t : Tree) (mode : Printer.Cells) (id : NodeId) : Bytes :=
  Printer.node mode t.store t.store.nodes.size [] id

def print (t : Tree) (mode : Printer.Cells) : Bytes :=
  utf8 "/dts-v1/;\n\n" ++ t.printNode mode Store.rootId

end Tree
end DeviceTree
