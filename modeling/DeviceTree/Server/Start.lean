import DeviceTree.Server.State

namespace DeviceTree.Server

def warn (message : String) (fields : List Log.Field) : Output :=
  .log ⟨.warn, utf8 message, fields⟩

def field (name : String) (text : Bytes) : Log.Field := (utf8 name, .text text)

-- The outputs of two steps one after the other, unless the first was the last.
def andThen (first : List Output × Server) (second : Server → List Output × Server) :
    List Output × Server :=
  let (out, sv) := first
  if sv.crash.isSome then (out, sv)
  else
    let (more, sv) := second sv
    (out ++ more, sv)

def loadingLog (source : Source) (files : List Bytes) : List Log.Record :=
  let refused := files.filterMap fun path =>
    match Loader.readDocument source path with
    | .ok _ => none
    | .error e => some (Log.Record.mk .warn (utf8 "skipping binding")
        [field "file" path, field "error" e.message])
  let count := (Loader.load source .empty files).documents.length
  refused ++ [⟨.info, utf8 "bindings loaded", [(utf8 "count", .number count)]⟩]

def loadBindings (env : Environment) (files : List Bytes) (sv : Server) : List Output × Server :=
  match sv.session with
  | none => ([], sv)
  | some s =>
    if files.isEmpty then ([], sv)
    else
      let loader := Loader.load env.source .empty files
      let logged := (loadingLog env.source files).map .log ++ loader.diagnostics.map fun d =>
        warn "binding skipped" [field "diagnostic" d.text]
      let (out, sv) := sv.observe (s.loadBindings files)
      let (more, sv) := sv.work env
      (logged ++ out ++ more, sv)

def openContext (env : Environment) (name base : Bytes) (overlays : List Bytes) (sv : Server) :
    Except Session.LoadError Session.ContextId × List Output × Server :=
  match sv.session with
  | none => (.ok 0, [], sv)
  | some s =>
    let (id, s) := s.openContext name base overlays
    let (out, sv) := sv.observe s
    let (more, sv) := sv.awaitReady env id
    match (sv.session.bind (·.context? id)).bind (·.failure) with
    | some failure => (.error failure, out ++ more, sv)
    | none => (.ok id, out ++ more, sv)

def readBoard (env : Environment) (c : ContextConfig) (id : Session.ContextId) (sv : Server) :
    List Output × Server :=
  if c.boardInfo = [] then ([], sv)
  else
    match Board.load env.disk c.boardInfo with
    | .ok b => ([], { sv with boards := (id, b) :: sv.boards })
    | .error e =>
      ([warn "cannot read board file" [field "context" c.name, field "error" e.message]], sv)

def openConfigured (env : Environment) (c : ContextConfig) (sv : Server) :
    List Output × Server :=
  match openContext env c.name c.board c.overlays sv with
  | (.error e, out, sv) =>
    (out ++ [warn "cannot open context" [field "context" c.name, field "error" e.message]], sv)
  | (.ok id, out, sv) => andThen (out, sv) (readBoard env c id)

def openAll (env : Environment) : List ContextConfig → Server → List Output × Server
  | [], sv => ([], sv)
  | c :: rest, sv => andThen (openConfigured env c sv) (openAll env rest)

def begin (env : Environment) (config : Config) (root : Bytes) (sv : Server) :
    List Output × Server :=
  let sv := { sv with config := some config, session := some .empty, boards := [], seen := 0, crash := none }
  let (scanned, files) : List Output × List Bytes :=
    match config.allBindings env.disk with
    | .ok files => ([], files)
    | .error e => ([warn "binding directories" [field "error" e.message]], [])
  let (out, sv) := andThen (andThen (loadBindings env files sv) (openAll env config.contexts)) fun sv =>
    let count := (sv.session.map (·.enrolled.length)).getD 0
    ([.log ⟨.info, utf8 "initialized", [field "root" root, (utf8 "contexts", .number count)]⟩], sv)
  (scanned ++ out, sv)

def connect (env : Environment) (root : Bytes) (sv : Server) :
    Except Config.Problem (List Output × Server) :=
  match sv.config with
  | some config => .ok (begin env config root sv)
  | none => (Config.loadFull env.disk env.home root).map fun config => begin env config root sv

end DeviceTree.Server
