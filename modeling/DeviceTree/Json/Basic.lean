import DeviceTree.Bytes

namespace DeviceTree

inductive Json where
  | null
  | bool (value : Bool)
  | number (literal : Bytes)
  | string (text : Bytes)
  | array (items : List Json)
  | object (members : List (Bytes × Json))
  deriving BEq, Repr, Inhabited

namespace Json

def int (n : Int) : Json := .number (Bytes.signed n)
def nat (n : Nat) : Json := .number (Bytes.decimal n)

def ofMembers (members : List (String × Json)) : Json :=
  .object (members.map fun (name, v) => (utf8 name, v))

end Json
end DeviceTree
