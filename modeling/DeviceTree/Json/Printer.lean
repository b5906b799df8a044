import DeviceTree.Json.Basic
import DeviceTree.Text.Rune

namespace DeviceTree.Json

def escaped (code : Nat) : Bytes := utf8 "\\u" ++ Bytes.hexPadded 4 code

def printRune : Text.Rune → Bytes
  | .stray _ => escaped Text.replacement
  | .scalar code =>
    if code = 0x22 then utf8 "\\\""
    else if code = 0x5c then utf8 "\\\\"
    else if code = 0x08 then utf8 "\\b"
    else if code = 0x0c then utf8 "\\f"
    else if code = 0x0a then utf8 "\\n"
    else if code = 0x0d then utf8 "\\r"
    else if code = 0x09 then utf8 "\\t"
    else if code < 0x20 || code = 0x3c || code = 0x3e || code = 0x26 ||
        code = 0x2028 || code = 0x2029 then escaped code
    else Text.encodeCode code

def printString (text : Bytes) : Bytes :=
  utf8 "\"" ++ (Text.decode text).flatMap printRune ++ utf8 "\""

mutual

def print : Json → Bytes
  | .null => utf8 "null"
  | .bool true => utf8 "true"
  | .bool false => utf8 "false"
  | .number literal => literal
  | .string text => printString text
  | .array items => utf8 "[" ++ Bytes.join (utf8 ",") (printItems items) ++ utf8 "]"
  | .object members => utf8 "\x7b" ++ Bytes.join (utf8 ",") (printMembers members) ++ utf8 "\x7d"

def printItems : List Json → List Bytes
  | [] => []
  | v :: rest => print v :: printItems rest

def printMembers : List (Bytes × Json) → List Bytes
  | [] => []
  | (name, v) :: rest => (printString name ++ utf8 ":" ++ print v) :: printMembers rest

end

end DeviceTree.Json
