import DeviceTree.Command.Basic

namespace DeviceTree.Command

def textFlag (name usage : String) : Flag := ⟨utf8 name, .text [], utf8 usage⟩
def listFlag (name usage : String) : Flag := ⟨utf8 name, .list, utf8 usage⟩
def switchFlag (name usage : String) : Flag := ⟨utf8 name, .switch, utf8 usage⟩

def commonFlags (own : List Flag) : List Flag :=
  [listFlag "I" "include directory", listFlag "b" "binding file",
    textFlag "c" "configuration file", textFlag "context" "configured context to use"] ++ own ++
  [switchFlag "v" "debug logging"]

def loadConfig (w : World) (p : Parsed) : Except Config.Problem Config :=
  match p.text "c" with
  | [] => Config.loadFull w.disk w.home w.disk.cwd
  | file => Config.load w.disk file

def loggerOf (c : Config) (verbose : Bool) : Log.Logger :=
  .ofNames (if verbose then utf8 "debug" else c.logLevel) c.logFormat

def choose (w : World) (p : Parsed) (c : Config) : Except Failure ContextConfig :=
  match p.text "context" with
  | [] =>
    (match p.rest.map w.disk.full with
    | base :: overlays => .ok ⟨Path.base base, base, overlays, []⟩
    | [] => .error .noInput)
  | name =>
    match c.context? name with
    | some context => .ok context
    | none => .error (.noContext name c.sources)

structure Opened where
  snapshot : Session.Snapshot
  board : Option Board
  bindings : List Diagnostic

def firstSnapshot (env : Session.Environment) (patience : Nat) (files : List Bytes)
    (c : ContextConfig) : Except Failure (Option Session.Snapshot) :=
  let s := Session.empty
  let s := if files.isEmpty then s else (s.loadBindings files).work env patience
  let (id, s) := s.openContext c.name c.board c.overlays
  let s := (s.awaitReady env id patience).settle env patience
  match s.crash, (s.context? id).bind (·.failure) with
  | some p, _ => .error (.crash p)
  | none, some e => .error (.load e)
  | none, none => .ok (s.snapshot? id)

def openBoard (w : World) (c : ContextConfig) (s : Screen) : Option Board × Screen :=
  if c.boardInfo = [] then (none, s)
  else
    match Board.load w.disk c.boardInfo with
    | .ok b => (some b, s)
    | .error e =>
      (none, s.log ⟨.warn, utf8 "cannot read board file", [(utf8 "error", .text e.message)]⟩)

def openChosen (w : World) (p : Parsed) (config : Config) (c : ContextConfig) (s : Screen) :
    Except Failure Opened × Screen :=
  match config.allBindings w.disk with
  | .error e => (.error (.bindings e), s)
  | .ok files =>
    let files := files ++ p.all "b"
    let loader := Loader.load w.disk.source .empty files
    let s := if files.isEmpty then s else s.logAll (Server.loadingLog w.disk.source files)
    let env : Session.Environment :=
      ⟨w.disk.source, config.includeDirs ++ (p.all "I").map w.disk.full, w.begun⟩
    match firstSnapshot env w.patience files c with
    | .error e => (.error e, s)
    | .ok none => (.error .noInput, s)
    | .ok (some snapshot) =>
      let (board, s) := openBoard w c s
      (.ok ⟨snapshot, board, loader.diagnostics⟩, s)

def openContext (w : World) (p : Parsed) : Except Failure Opened × Screen :=
  match loadConfig w p with
  | .error e => (.error (.config e), .blank)
  | .ok config =>
    let s := { Screen.blank with logger := loggerOf config (p.isOn "v") }
    match choose w p config with
    | .error e => (.error e, s)
    | .ok c => openChosen w p config c s

end DeviceTree.Command
