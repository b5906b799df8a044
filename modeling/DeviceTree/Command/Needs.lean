import DeviceTree.Command.Run

namespace DeviceTree.Command

structure Needs where
  files : List Bytes
  directories : List Bytes

namespace Needs

def none : Needs := ⟨[], []⟩

def add (a b : Needs) : Needs := ⟨a.files ++ b.files, a.directories ++ b.directories⟩

def ofText (cwd : Bytes) (includeDirs : List Bytes) (path text : Bytes) : List Bytes :=
  (Document.parse text).items.flatMap fun
    | .include i => File.lookups cwd includeDirs path i
    | _ => []

def ofDisk (d : Disk) (includeDirs : List Bytes) : Needs :=
  ⟨d.files.flatMap fun (path, text) => ofText d.cwd includeDirs path text, []⟩

def ofConfig (c : Config) : Needs :=
  ⟨c.bindingFiles ++ c.contexts.flatMap fun x => [x.board, x.boardInfo] ++ x.overlays,
    c.bindingDirs⟩

def ofFlags (w : World) (p : Parsed) : Needs :=
  let layers := Config.layerPaths w.home w.disk.cwd
  let named := [p.text "c"] ++ p.all "b" ++ p.rest
  let output := match p.text "o" with
    | [] => []
    | path => [Path.directory (w.disk.full path)]
  let first : Needs := ⟨layers ++ named, output⟩
  match loadConfig w p with
  | .ok c =>
    let dirs := c.includeDirs ++ (p.all "I").map w.disk.full
    first.add ((ofConfig c).add (ofDisk w.disk dirs))
  | .error _ => first

def ofArguments (w : World) : List Bytes → Needs
  | [] => none
  | command :: args =>
    match [checkFlags, buildFlags, queryFlags, serverFlags].find? (·.command = command) with
    | Option.none => none
    | some set =>
      match set.parse args with
      | .ok p => ofFlags w p
      | .error _ => none

def ofRequest (w : World) (sv : Server) (r : Server.Request) : Needs :=
  let dirs := (sv.config.map (·.includeDirs)).getD []
  let known := ofDisk w.disk dirs
  match r with
  | .connect root =>
    let layers : Needs := ⟨Config.layerPaths w.home root, []⟩
    (match sv.config.map Except.ok |>.getD (Config.loadFull w.disk w.home root) with
    | .ok c => layers.add ((ofConfig c).add (ofDisk w.disk c.includeDirs))
    | .error _ => layers)
  | .didOpen uri text =>
    let path := Uri.toPath uri
    known.add ⟨path :: ofText w.disk.cwd dirs path text, []⟩
  | .didChange uri texts =>
    known.add ⟨ofText w.disk.cwd dirs (Uri.toPath uri) (texts.getLast?.getD []), []⟩
  | .didClose uri => known.add ⟨[Uri.toPath uri], []⟩
  | _ => none

def ofMessage (w : World) (sv : Server) (body : Bytes) : Needs :=
  match (Json.parse body).bind Server.Message.ofJson? with
  | some m => ofRequest w sv (.ofMessage m)
  | Option.none => none

end Needs
end DeviceTree.Command
