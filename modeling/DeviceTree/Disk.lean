import DeviceTree.Source.File

namespace DeviceTree

structure Disk where
  files : FileTable
  cwd : Bytes
  directories : List Bytes

namespace Disk

def ofTable (files : FileTable) (cwd : Bytes) : Disk := ⟨files, cwd, []⟩

def full (d : Disk) (path : Bytes) : Bytes := Path.absolute d.cwd path

def namesDirectory (path : Bytes) : Bool := Bytes.endsWith path (utf8 "/")

def isFile (d : Disk) (path : Bytes) : Bool :=
  !namesDirectory path && (d.files.lookup (d.full path)).isSome

def isDirectory (d : Disk) (path : Bytes) : Bool :=
  let path := d.full path
  let lead := if path = utf8 "/" then path else path ++ utf8 "/"
  path = utf8 "/" || path = Path.clean d.cwd || d.directories.elem path ||
    d.files.any fun (p, _) => Bytes.startsWith p lead

def exists? (d : Disk) (path : Bytes) : Bool := d.isFile path || d.isDirectory path

def parents (path : Bytes) : List Bytes :=
  let parts := (Bytes.split 0x2f path).filter (· != [])
  (List.range parts.length).map fun n => 0x2f :: Bytes.join (utf8 "/") (parts.take n)

def read (d : Disk) (path : Bytes) : Except ReadError Bytes :=
  match d.files.lookup (d.full path) with
  | some text =>
    if path = [] then .error (.noSuchFile path)
    else if namesDirectory path then .error (.notDirectory path)
    else .ok text
  | none =>
    if path != [] && d.isDirectory path then .error (.isDirectory path)
    else if (parents (d.full path)).any fun p => (d.files.lookup p).isSome then
      .error (.notDirectory path)
    else .error (.noSuchFile path)

def set (d : Disk) (path : Bytes) (text : Option Bytes) : Disk :=
  let full := d.full path
  { d with files := (text.map (full, ·)).toList ++ d.files.filter (·.1 != full) }

inductive CreateError where
  | noSuchFile (path : Bytes)
  | isDirectory (path : Bytes)
  | notDirectory (path : Bytes)
  deriving DecidableEq, Repr

def CreateError.message : CreateError → Bytes
  | .noSuchFile path => utf8 "open " ++ path ++ utf8 ": no such file or directory"
  | .isDirectory path => utf8 "open " ++ path ++ utf8 ": is a directory"
  | .notDirectory path => utf8 "open " ++ path ++ utf8 ": not a directory"

def create (d : Disk) (path text : Bytes) : Except CreateError Disk :=
  let full := d.full path
  if d.isDirectory path || namesDirectory path then .error (.isDirectory path)
  else if (parents full).any fun p => (d.files.lookup p).isSome then .error (.notDirectory path)
  else if !d.isDirectory (Path.directory full) then .error (.noSuchFile path)
  else .ok (d.set path (some text))

def source (d : Disk) : Source := ⟨d.read, d.isFile, d.cwd⟩

def list (d : Disk) (path : Bytes) : List Bytes :=
  let path := d.full path
  let lead := if path = utf8 "/" then path else path ++ utf8 "/"
  let names := d.files.filterMap fun (p, _) =>
    (Bytes.dropLead? lead p).map fun rest => rest.takeWhile (· != 0x2f)
  Bytes.sort names.eraseDups

end Disk
end DeviceTree
