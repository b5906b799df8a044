import DeviceTree.Command.Needs

namespace DeviceTree.Main
open Command

def nameOf (path : Bytes) : String :=
  (String.fromUTF8? (ByteArray.mk path.toArray)).getD ""

def readFile (path : Bytes) : IO (Option Bytes) := do
  if path.isEmpty then return none
  try
    let content ← IO.FS.readBinFile (nameOf path)
    return some content.toList
  catch _ => return none

def listDirectory (path : Bytes) : IO (Option (List Bytes)) := do
  try
    let entries ← ((← IO.currentDir) / nameOf path).readDir
    return some (entries.toList.map fun e => utf8 e.fileName)
  catch _ => return none

def isBindingName (name : Bytes) : Bool :=
  Bytes.endsWith name (utf8 ".yaml") || Bytes.endsWith name (utf8 ".yml")

def readInto (d : Disk) (paths : List Bytes) : IO Disk :=
  paths.foldlM (fun d path => do return d.set path (← readFile path)) d

def scanInto (d : Disk) (dirs : List Bytes) : IO Disk :=
  dirs.foldlM (fun d dir => do
    match ← listDirectory dir with
    | some names =>
      let documents := (names.filter isBindingName).map fun name => Path.join [dir, name]
      readInto { d with directories := d.full dir :: d.directories } documents
    | none => return d) d

partial def gather (wanted : World → Needs) (seen : Needs) (w : World) : IO World := do
  let all := wanted w
  let files := all.files.eraseDups.filter (!seen.files.elem ·)
  let dirs := all.directories.eraseDups.filter (!seen.directories.elem ·)
  if files.isEmpty && dirs.isEmpty then return w
  let disk ← scanInto (← readInto w.disk files) dirs
  gather wanted (seen.add ⟨files, dirs⟩) { w with disk }

def writeTo (out : IO.FS.Stream) (text : Bytes) : IO Unit := do
  out.write (ByteArray.mk text.toArray)
  out.flush

def display (s : Screen) (outputs : List Server.Output) : IO Unit := do
  let shown := { s with stdout := [], stderr := [] }.display outputs
  writeTo (← IO.getStdout) shown.stdout
  writeTo (← IO.getStderr) shown.stderr

def hangUp (s : Screen) (w : World) (failure : Option Failure) : IO UInt32 := do
  let ending : Ending := ⟨{ s with stdout := [], stderr := [] }, w.disk, failure⟩
  let o := ending.outcome serverFlags.command
  writeTo (← IO.getStderr) o.stderr
  return o.exitCode.toUInt32

-- Serves messages as they come. A file counts as quiet once no message is waiting.
partial def converse (s : Screen) (w : World) (sv : Server) (buffer : Bytes) : IO UInt32 := do
  match Frame.read buffer with
  | .message body rest =>
    let w ← gather (Needs.ofMessage · sv body) .none w
    let env := serverEnvironment w
    let r := sv.handle env body
    display s r.outputs
    let (out, sv) := if r.stop then ([], r.server) else r.server.settle env
    display s out
    match sv.crash with
    | some panic => hangUp s w (some (.crash panic))
    | none => if r.stop then return 0 else converse s w sv rest
  | .failed (.badLength value cause) => hangUp s w (some (.stream (.badLength value cause)))
  | .failed .noLength => hangUp s w (some (.stream .noLength))
  | .failed .truncated | .done =>
    let more ← (← IO.getStdin).read 65536
    if !more.isEmpty then converse s w sv (buffer ++ more.toList)
    else
      match Frame.read buffer with
      | .failed problem => hangUp s w (some (.stream problem))
      | _ => return 0

def serveArguments (w : World) (args : List Bytes) : IO UInt32 := do
  match serverFlags.parse args with
  | .ok p =>
    (match startServer w p with
    | (.ok sv, s) => converse s w sv []
    | (.error f, s) => do
      let o := (Ending.mk s w.disk (some f)).outcome serverFlags.command
      writeTo (← IO.getStderr) o.stderr
      return o.exitCode.toUInt32)
  | .error problem =>
    writeTo (← IO.getStderr) (serverFlags.complaint problem)
    return problem.exitCode.toUInt32

def store (before after : Disk) : IO Unit :=
  after.files.forM fun (path, text) => do
    if before.files.lookup path != some text then
      IO.FS.writeBinFile (nameOf path) (ByteArray.mk text.toArray)

def runArguments (w : World) (args : List Bytes) : IO UInt32 := do
  let o := Command.run w args
  store w.disk o.disk
  writeTo (← IO.getStdout) o.stdout
  writeTo (← IO.getStderr) o.stderr
  return o.exitCode.toUInt32

def patience : Nat := 1000000000

end DeviceTree.Main

open DeviceTree DeviceTree.Main in
def main (arguments : List String) : IO UInt32 := do
  let args := arguments.map utf8
  let cwd ← IO.currentDir
  let home := (← IO.getEnv "HOME").getD ""
  let start : Command.World := ⟨.ofTable [] (utf8 cwd.toString), utf8 home, [], fun _ => [], patience⟩
  let w ← gather (Command.Needs.ofArguments · args) .none start
  if args.head? = some Command.serverFlags.command then serveArguments w args.tail
  else runArguments w args
