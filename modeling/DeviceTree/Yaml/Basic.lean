import DeviceTree.Bytes

namespace DeviceTree

inductive Yaml where
  | null
  | bool (value : Bool)
  | int (value : Int)
  | float (text : Bytes)
  | string (value : Bytes)
  | seq (items : List Yaml)
  | map (entries : List (Bytes × Yaml))
  deriving BEq, Repr

namespace Yaml

def string? : Yaml → Option Bytes
  | .string s => some s
  | _ => none

def seq? : Yaml → Option (List Yaml)
  | .seq items => some items
  | _ => none

end Yaml
end DeviceTree
