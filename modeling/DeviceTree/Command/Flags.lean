import DeviceTree.Text.Quoted

namespace DeviceTree.Command

inductive FlagKind where
  | text (default : Bytes)
  | list
  | switch
  deriving DecidableEq, Repr

structure Flag where
  name : Bytes
  kind : FlagKind
  usage : Bytes
  deriving DecidableEq, Repr

structure FlagSet where
  command : Bytes
  flags : List Flag
  deriving Repr

inductive FlagProblem where
  | help
  | badSyntax (argument : Bytes)
  | undefined (name : Bytes)
  | badBoolean (value name : Bytes)
  | missingValue (name : Bytes)
  deriving DecidableEq, Repr

def FlagProblem.message : FlagProblem → Bytes
  | .help => []
  | .badSyntax argument => utf8 "bad flag syntax: " ++ argument ++ utf8 "\n"
  | .undefined name => utf8 "flag provided but not defined: -" ++ name ++ utf8 "\n"
  | .badBoolean value name =>
    utf8 "invalid boolean value " ++ Text.quote value ++ utf8 " for -" ++ name ++
      utf8 ": parse error\n"
  | .missingValue name => utf8 "flag needs an argument: -" ++ name ++ utf8 "\n"

structure Parsed where
  settings : List (Bytes × Bytes)
  rest : List Bytes
  deriving DecidableEq, Repr

def yes : Bytes := utf8 "true"
def no : Bytes := utf8 "false"

def readBoolean (value : Bytes) : Option Bytes :=
  if [utf8 "1", utf8 "t", utf8 "T", yes, utf8 "TRUE", utf8 "True"].elem value then some yes
  else if [utf8 "0", utf8 "f", utf8 "F", no, utf8 "FALSE", utf8 "False"].elem value then some no
  else none

def splitValue (body : Bytes) : Bytes × Option Bytes :=
  match body with
  | [] => ([], none)
  | first :: rest =>
    match Bytes.cut 0x3d rest with
    | some (name, value) => (first :: name, some value)
    | none => (body, none)

inductive Argument where
  | flag (body : Bytes)
  | terminator
  | plain

def Argument.of : Bytes → Argument
  | [0x2d, 0x2d] => .terminator
  | 0x2d :: 0x2d :: body => .flag body
  | 0x2d :: b :: body => .flag (b :: body)
  | _ => .plain

def readFlag (set : FlagSet) (argument body : Bytes) (rest : List Bytes) :
    Except FlagProblem ((Bytes × Bytes) × Nat) :=
  if body = [] || body.head? = some 0x2d || body.head? = some 0x3d then
    .error (.badSyntax argument)
  else
    let (name, value) := splitValue body
    match set.flags.find? (·.name = name) with
    | none =>
      if name = utf8 "help" || name = utf8 "h" then .error .help else .error (.undefined name)
    | some flag =>
      match flag.kind, value, rest with
      | .switch, none, _ => .ok ((name, yes), 0)
      | .switch, some value, _ =>
        (match readBoolean value with
        | some b => .ok ((name, b), 0)
        | none => .error (.badBoolean value name))
      | _, some value, _ => .ok ((name, value), 0)
      | _, none, value :: _ => .ok ((name, value), 1)
      | _, none, [] => .error (.missingValue name)

def FlagSet.parse (set : FlagSet) : List Bytes → Except FlagProblem Parsed
  | [] => .ok ⟨[], []⟩
  | argument :: rest =>
    match Argument.of argument with
    | .plain => .ok ⟨[], argument :: rest⟩
    | .terminator => .ok ⟨[], rest⟩
    | .flag body =>
      match readFlag set argument body rest with
      | .error e => .error e
      | .ok (setting, taken) =>
        (set.parse (rest.drop taken)).map fun p => { p with settings := setting :: p.settings }
termination_by args => args.length
decreasing_by simp only [List.length_drop, List.length_cons]; omega

def Parsed.last? (p : Parsed) (name : String) : Option Bytes :=
  (p.settings.filter (·.1 = utf8 name)).getLast?.map (·.2)

def Parsed.text (p : Parsed) (name : String) : Bytes := (p.last? name).getD []

def Parsed.all (p : Parsed) (name : String) : List Bytes :=
  (p.settings.filter (·.1 = utf8 name)).map (·.2)

def Parsed.isOn (p : Parsed) (name : String) : Bool := p.last? name = some yes

def Flag.help (f : Flag) : Bytes :=
  let head := utf8 "  -" ++ f.name ++
    match f.kind with
    | .text _ => utf8 " string"
    | .list => utf8 " value"
    | .switch => []
  let default := match f.kind with
    | .text value => if value = [] then [] else utf8 " (default " ++ Text.quote value ++ utf8 ")"
    | _ => []
  head ++ (if head.length ≤ 4 then utf8 "\t" else utf8 "\n    \t") ++ f.usage ++ default ++
    utf8 "\n"

def FlagSet.help (set : FlagSet) : Bytes :=
  utf8 "Usage of " ++ set.command ++ utf8 ":\n" ++ set.flags.flatMap Flag.help

def FlagSet.complaint (set : FlagSet) (problem : FlagProblem) : Bytes :=
  problem.message ++ set.help

def FlagProblem.exitCode : FlagProblem → Nat
  | .help => 0
  | _ => 2

end DeviceTree.Command
