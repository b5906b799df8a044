import DeviceTree.Text.Quoted

namespace DeviceTree.Log

inductive Severity where
  | debug | info | warn | error
  deriving DecidableEq, Repr

namespace Severity

def name : Severity → Bytes
  | .debug => utf8 "DEBUG"
  | .info => utf8 "INFO"
  | .warn => utf8 "WARN"
  | .error => utf8 "ERROR"

def rank : Severity → Nat
  | .debug => 0
  | .info => 1
  | .warn => 2
  | .error => 3

def ofName (word : Bytes) : Severity :=
  if word = utf8 "debug" then .debug
  else if word = utf8 "warn" then .warn
  else if word = utf8 "error" then .error
  else .info

end Severity

inductive Format where
  | text | object
  deriving DecidableEq, Repr

def Format.ofName (word : Bytes) : Format := if word = utf8 "json" then .object else .text

structure Logger where
  threshold : Severity
  format : Format
  deriving DecidableEq, Repr

def Logger.ofNames (level format : Bytes) : Logger := ⟨.ofName level, .ofName format⟩

def breaksText : Text.Rune → Bool
  | .stray _ => true
  | .scalar c =>
    if c < 0x80 then c ≤ 0x20 || c == 0x22 || c == 0x3d
    else c == Text.replacement || (Text.Rune.scalar c).isSpace || !Text.isPrintable c

def textValue (value : Bytes) : Bytes :=
  if value.isEmpty || (Text.decode value).any breaksText then Text.quote value else value

def objectRune : Text.Rune → Bytes
  | .stray _ => utf8 "\\ufffd"
  | .scalar c =>
    if c = 0x22 then utf8 "\\\""
    else if c = 0x5c then utf8 "\\\\"
    else if c = 0x0a then utf8 "\\n"
    else if c = 0x0d then utf8 "\\r"
    else if c = 0x09 then utf8 "\\t"
    else if c < 0x20 then utf8 "\\u" ++ Bytes.hexPadded 4 c
    else if c = 0x2028 || c = 0x2029 then utf8 "\\u" ++ Bytes.hexPadded 4 c
    else Text.encodeCode c

def objectText (value : Bytes) : Bytes :=
  utf8 "\"" ++ (Text.decode value).flatMap objectRune ++ utf8 "\""

inductive Value where
  | text (text : Bytes)
  | number (value : Int)
  deriving DecidableEq, Repr

def Value.print (format : Format) : Value → Bytes
  | .number n => Bytes.signed n
  | .text t =>
    match format with
    | .text => textValue t
    | .object => objectText t

abbrev Field := Bytes × Value

def Field.print (format : Format) (f : Field) : Bytes :=
  match format with
  | .text => textValue f.1 ++ utf8 "=" ++ f.2.print .text
  | .object => objectText f.1 ++ utf8 ":" ++ f.2.print .object

def pairs : List Bytes → List Field
  | key :: value :: rest => (key, .text value) :: pairs rest
  | [value] => [(utf8 "!BADKEY", .text value)]
  | [] => []

structure Record where
  level : Severity
  message : Bytes
  fields : List Field
  deriving DecidableEq, Repr

def Record.allFields (r : Record) : List Field :=
  [(utf8 "level", .text r.level.name), (utf8 "msg", .text r.message),
    (utf8 "app", .text (utf8 "dtt"))] ++ r.fields

def Record.line (format : Format) (r : Record) : Bytes :=
  let fields := r.allFields.map (Field.print format)
  match format with
  | .text => Bytes.join (utf8 " ") fields ++ utf8 "\n"
  | .object => utf8 "\x7b" ++ Bytes.join (utf8 ",") fields ++ utf8 "\x7d\n"

def Logger.write (l : Logger) (r : Record) : Bytes :=
  if r.level.rank < l.threshold.rank then [] else r.line l.format

def info (message : Bytes) : Record := ⟨.info, message, []⟩

def directive (verb : UInt8) (arg : Bytes) : Bytes :=
  match Char.ofUInt8 verb with
  | 's' | 'v' => arg
  | 'q' => Text.quote arg
  | 'x' => arg.flatMap fun b => Bytes.hexPadded 2 b.toNat
  | _ => utf8 "%!" ++ [verb] ++ utf8 "(string=" ++ arg ++ utf8 ")"

def fill : Bytes → List Bytes → Bytes
  | [], [] => []
  | [], args =>
    utf8 "%!(EXTRA " ++ Bytes.join (utf8 ", ") (args.map (utf8 "string=" ++ ·)) ++ utf8 ")"
  | 0x25 :: 0x25 :: rest, args => 0x25 :: fill rest args
  | 0x25 :: verb :: rest, arg :: args => directive verb arg ++ fill rest args
  | 0x25 :: verb :: rest, [] => utf8 "%!" ++ [verb] ++ utf8 "(MISSING)" ++ fill rest []
  | [0x25], args => utf8 "%!(NOVERB)" ++ fill [] args
  | b :: rest, args => b :: fill rest args

end DeviceTree.Log
