import DeviceTree.Diagnostic
import DeviceTree.Path
import DeviceTree.Source.Parser

namespace DeviceTree

-- Why a file cannot be read.
inductive ReadError where
  | absent (path : Bytes)
  | noSuchFile (path : Bytes)
  | isDirectory (path : Bytes)
  | notDirectory (path : Bytes)
  deriving DecidableEq, Repr

def ReadError.message : ReadError → Bytes
  | .absent path => utf8 "open " ++ path ++ utf8 ": file does not exist"
  | .noSuchFile path => utf8 "open " ++ path ++ utf8 ": no such file or directory"
  | .isDirectory path => utf8 "read " ++ path ++ utf8 ": is a directory"
  | .notDirectory path => utf8 "open " ++ path ++ utf8 ": not a directory"

structure Source where
  read : Bytes → Except ReadError Bytes
  exists? : Bytes → Bool
  cwd : Bytes

abbrev FileTable := List (Bytes × Bytes)

def Source.ofTable (table : FileTable) : Source where
  read path := match table.lookup path with
    | some text => .ok text
    | none => .error (.absent path)
  exists? path := (table.lookup path).isSome
  cwd := utf8 "/"

structure ResolvedInclude where
  decl : Include
  target : Option Bytes
  deriving DecidableEq, Repr

-- A header holds macros only, which are not evaluated, so it declares nothing.
def Include.isHeader (i : Include) : Bool := Bytes.endsWith i.path (utf8 ".h")

structure File where
  path : Bytes
  text : Bytes
  document : Document
  includes : List ResolvedInclude
  diagnostics : List Diagnostic

namespace File

def lookups (cwd : Bytes) (includeDirs : List Bytes) (file : Bytes) (i : Include) : List Bytes :=
  if Path.isAbsolute i.path then [i.path]
  else
    let dirs := if i.system then includeDirs else Path.directory file :: includeDirs
    dirs.map fun dir => Path.absolute cwd (Path.join [dir, i.path])

def resolve (source : Source) (includeDirs : List Bytes) (file : Bytes) (i : Include) :
    Option Bytes :=
  ((lookups source.cwd includeDirs file i).find? source.exists?).map Path.clean

def ofText (source : Source) (includeDirs : List Bytes) (path text : Bytes) : File :=
  let document := Document.parse text
  let includes := document.items.filterMap fun
    | .include i => some (ResolvedInclude.mk i (resolve source includeDirs path i))
    | _ => none
  let missing := includes.filterMap fun i =>
    if i.target.isNone then some ⟨path, i.decl.pathRange, .includeNotFound i.decl.path⟩ else none
  ⟨path, text, document, includes, document.errors.map (.ofSyntax path) ++ missing⟩

def read (source : Source) (includeDirs : List Bytes) (path : Bytes) : Except ReadError File :=
  (source.read path).map (ofText source includeDirs path)

def target? (f : File) (i : Include) : Option Bytes :=
  (f.includes.find? (·.decl = i)).bind (·.target)

def includeAt? (f : File) (p : Position) : Option ResolvedInclude :=
  f.includes.find? (·.decl.range.contains p)

end File
end DeviceTree
