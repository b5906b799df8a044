import DeviceTree.Glob
import DeviceTree.Toml.Table

namespace DeviceTree

structure ContextConfig where
  name : Bytes
  board : Bytes
  overlays : List Bytes
  boardInfo : Bytes
  deriving DecidableEq, Repr, Inhabited

structure Config where
  logLevel : Bytes
  logFormat : Bytes
  debounceMs : Int
  includeDirs : List Bytes
  bindingFiles : List Bytes
  bindingDirs : List Bytes
  contexts : List ContextConfig
  sources : List Bytes
  deriving DecidableEq, Repr

namespace Config

def fileName : Bytes := utf8 "dtt.toml"

def blank : Config := ⟨[], [], 0, [], [], [], [], []⟩

def default : Config := { blank with logLevel := utf8 "info", logFormat := utf8 "text", debounceMs := 200 }

inductive Problem where
  | malformed (path : Bytes)
  | unknownKey (path : Bytes)
  | unreadable (cause : ReadError)
  | namelessContext (path : Bytes) (number : Nat)
  | boardless (path name : Bytes)
  | twice (path name : Bytes)
  | negativeDebounce (path : Bytes)
  deriving DecidableEq, Repr

def Problem.message : Problem → Bytes
  | .malformed path => path ++ utf8 ": malformed configuration"
  | .unknownKey path => path ++ utf8 ": unknown key in configuration"
  | .unreadable cause => utf8 "reading config file: " ++ cause.message
  | .namelessContext path n => path ++ utf8 ": context #" ++ Bytes.decimal n ++ utf8 " has no name"
  | .boardless path name =>
    path ++ utf8 ": context " ++ Text.quote name ++ utf8 " has no board file"
  | .twice path name => path ++ utf8 ": context " ++ Text.quote name ++ utf8 " defined twice"
  | .negativeDebounce path => path ++ utf8 ": parser.debounce_ms must not be negative"

structure Reading (α : Type) where
  value : α
  unknown : Bool

def stringOf : Toml.Item → Option Bytes
  | .value (.string s) => some s
  | _ => none

def stringsOf : Toml.Item → Option (List Bytes)
  | .value (.array items) => items.mapM fun
    | .string s => some s
    | _ => none
  | _ => none

def intOf : Toml.Item → Option Int
  | .value (.integer n) => some n
  | _ => none

def readTable (field : Bytes → α → Toml.Item → Option (Option α)) (start : Reading α)
    (entries : Toml.Table) : Option (Reading α) :=
  entries.foldlM (fun r (key, item) =>
    match field (Bytes.toLower key) r.value item with
    | some (some value) => some { r with value }
    | some none => some { r with unknown := true }
    | none => none) start

-- A known key: its value has to have the right type.
def known (read : Toml.Item → Option β) (item : Toml.Item) (set : β → α) : Option (Option α) :=
  (read item).map fun v => some (set v)

def logField (key : Bytes) (c : Config) (item : Toml.Item) : Option (Option Config) :=
  if key = utf8 "level" then known stringOf item fun s => { c with logLevel := s }
  else if key = utf8 "format" then known stringOf item fun s => { c with logFormat := s }
  else some none

def parserField (key : Bytes) (c : Config) (item : Toml.Item) : Option (Option Config) :=
  if key = utf8 "debounce_ms" then known intOf item fun n => { c with debounceMs := n }
  else if key = utf8 "include_dirs" then known stringsOf item fun l => { c with includeDirs := l }
  else some none

def bindingsField (key : Bytes) (c : Config) (item : Toml.Item) : Option (Option Config) :=
  if key = utf8 "files" then known stringsOf item fun l => { c with bindingFiles := l }
  else if key = utf8 "dirs" then known stringsOf item fun l => { c with bindingDirs := l }
  else some none

def contextField (key : Bytes) (c : ContextConfig) (item : Toml.Item) :
    Option (Option ContextConfig) :=
  if key = utf8 "name" then known stringOf item fun s => { c with name := s }
  else if key = utf8 "board" then known stringOf item fun s => { c with board := s }
  else if key = utf8 "overlays" then known stringsOf item fun l => { c with overlays := l }
  else if key = utf8 "board_info" then known stringOf item fun s => { c with boardInfo := s }
  else some none

def tablesOf (fuel : Nat) : Toml.Item → Option (List Toml.Table)
  | .tables ts => some ts
  | .value (.array items) => items.mapM fun
    | .inline entries => Toml.tableOf fuel entries []
    | _ => none
  | _ => none

def addContext (r : Reading Config) (t : Toml.Table) : Option (Reading Config) :=
  (readTable contextField ⟨⟨[], [], [], []⟩, r.unknown⟩ t).map fun c =>
    ⟨{ r.value with contexts := r.value.contexts ++ [c.value] }, c.unknown⟩

def section? (item : Toml.Item) : Option Toml.Table :=
  match item with
  | .table _ entries => some entries
  | _ => none

def topField (fuel : Nat) (r : Reading Config) (key : Bytes) (item : Toml.Item) :
    Option (Reading Config) :=
  let key := Bytes.toLower key
  if key = utf8 "log" then (section? item).bind (readTable logField r)
  else if key = utf8 "parser" then (section? item).bind (readTable parserField r)
  else if key = utf8 "bindings" then (section? item).bind (readTable bindingsField r)
  else if key = utf8 "context" then (tablesOf fuel item).bind (List.foldlM addContext r)
  else some { r with unknown := true }

def ofText (path text : Bytes) : Except Problem Config :=
  match Toml.parse text with
  | none => .error (.malformed path)
  | some table =>
    match table.foldlM (fun r (key, item) => topField (text.length + 1) r key item) ⟨blank, false⟩ with
    | none => .error (.malformed path)
    | some r => if r.unknown then .error (.unknownKey path) else .ok r.value

-- A relative path of a file is seen from its directory; an empty one stays empty.
def place (dir path : Bytes) : Bytes :=
  if path = [] || Path.isAbsolute path then path else Path.join [dir, path]

def resolve (dir : Bytes) (c : Config) : Config :=
  { c with
    includeDirs := c.includeDirs.map (place dir)
    bindingFiles := c.bindingFiles.map (place dir)
    bindingDirs := c.bindingDirs.map (place dir)
    contexts := c.contexts.map fun x =>
      { x with board := place dir x.board, boardInfo := place dir x.boardInfo,
               overlays := x.overlays.map (place dir) } }

def checkContexts (path : Bytes) : (number : Nat) → (seen : List Bytes) → List ContextConfig →
    Option Problem
  | _, _, [] => none
  | number, seen, c :: rest =>
    if c.name = [] then some (.namelessContext path number)
    else if c.board = [] then some (.boardless path c.name)
    else if seen.elem c.name then some (.twice path c.name)
    else checkContexts path (number + 1) (c.name :: seen) rest

def check (path : Bytes) (c : Config) : Option Problem :=
  match checkContexts path 1 [] c.contexts with
  | some p => some p
  | none => if c.debounceMs < 0 then some (.negativeDebounce path) else none

def loadFile (d : Disk) (path : Bytes) : Except Problem Config :=
  match d.read path with
  | .error cause => .error (.unreadable cause)
  | .ok text =>
    match ofText path text with
    | .error p => .error p
    | .ok c =>
      let full := d.full path
      let c := { resolve (Path.directory full) c with sources := [full] }
      match check path c with
      | some p => .error p
      | none => .ok c

def replaceContext (contexts : List ContextConfig) (c : ContextConfig) : List ContextConfig :=
  if contexts.any (·.name = c.name) then contexts.map fun x => if x.name = c.name then c else x
  else contexts ++ [c]

def layered (c layer : Config) : Config :=
  { logLevel := if layer.logLevel = [] then c.logLevel else layer.logLevel
    logFormat := if layer.logFormat = [] then c.logFormat else layer.logFormat
    debounceMs := if layer.debounceMs = 0 then c.debounceMs else layer.debounceMs
    includeDirs := c.includeDirs ++ layer.includeDirs
    bindingFiles := c.bindingFiles ++ layer.bindingFiles
    bindingDirs := c.bindingDirs ++ layer.bindingDirs
    contexts := layer.contexts.foldl replaceContext c.contexts
    sources := c.sources ++ layer.sources }

def load (d : Disk) (path : Bytes) : Except Problem Config :=
  (loadFile d path).map (layered default)

def layerPaths (home root : Bytes) : List Bytes :=
  [utf8 "/etc/dtt/" ++ fileName] ++
    (if home = [] then [] else [Path.join [home, utf8 ".config", utf8 "dtt", fileName]]) ++
    (if root = [] then [] else [Path.join [root, fileName]])

def loadFull (d : Disk) (home root : Bytes) : Except Problem Config :=
  ((layerPaths home root).filter d.exists?).foldlM
    (fun c path => (loadFile d path).map (layered c)) default

def context? (c : Config) (name : Bytes) : Option ContextConfig := c.contexts.find? (·.name = name)

structure BadDirectory where
  dir : Bytes
  deriving DecidableEq, Repr

def BadDirectory.message (e : BadDirectory) : Bytes :=
  utf8 "scanning binding dir " ++ e.dir ++ utf8 ": syntax error in pattern"

def scanDirectory (d : Disk) (dir : Bytes) : Except BadDirectory (List Bytes) :=
  match Glob.glob d (Path.join [dir, utf8 "*.yaml"]), Glob.glob d (Path.join [dir, utf8 "*.yml"]) with
  | some long, some short => .ok (Bytes.sort (long ++ short))
  | _, _ => .error ⟨dir⟩

def allBindings (d : Disk) (c : Config) : Except BadDirectory (List Bytes) :=
  c.bindingDirs.foldlM (fun out dir => (scanDirectory d dir).map (out ++ ·)) c.bindingFiles

end Config
end DeviceTree
