import DeviceTree.Command.Describe
import DeviceTree.Command.Open

namespace DeviceTree.Command

def usageLines : List String := [
  "Usage: dtt <command> [arguments]",
  "",
  "Commands:",
  "  lsp   [-c dtt.toml] [-visualize addr]        run the language server on stdio",
  "  check [options] <base> [overlays...]         print diagnostics of a configuration",
  "  build [options] [-o out] <base> [overlays...] write the merged tree",
  "  query [options] -n <node> <base> [overlays...] describe one node",
  "",
  "Options:",
  "  -c file       configuration file (default: dtt.toml layers)",
  "  -context name take base and overlays from a configured context",
  "  -I dir        include directory, repeatable",
  "  -b file       binding file, repeatable",
  "  -v            debug logging"]

def usage : Bytes := usageLines.flatMap fun line => utf8 line ++ utf8 "\n"

def diagnosticLine (d : Diagnostic) : Bytes := d.text ++ utf8 " [" ++ d.code ++ utf8 "]\n"

def errorCount (ds : List Diagnostic) : Nat := (ds.filter (·.level = .error)).length

def checkFlags : FlagSet := ⟨utf8 "check", commonFlags []⟩

def buildFlags : FlagSet :=
  ⟨utf8 "build", commonFlags [textFlag "o" "output file (default stdout)",
    switchFlag "raw" "keep integer cells as written instead of evaluating them"]⟩

def queryFlags : FlagSet :=
  ⟨utf8 "query", commonFlags
    [⟨utf8 "n", .text (utf8 "/"), utf8 "node path, &label, label, alias or chosen name"⟩]⟩

def serverFlags : FlagSet :=
  ⟨utf8 "lsp", [textFlag "c" "configuration file",
    textFlag "visualize" "serve the node inspector on this address"]⟩

def check (w : World) (p : Parsed) : Ending :=
  match openContext w p with
  | (.error f, s) => ⟨s, w.disk, some f⟩
  | (.ok o, s) =>
    let found := o.bindings ++ o.snapshot.diagnostics
    let errors := errorCount found
    let s := s.print (found.flatMap diagnosticLine)
    if found.isEmpty then ⟨s.log (Log.info (utf8 "No issues found.")), w.disk, none⟩
    else
      let s := s.log (Log.info (utf8 "Found " ++ Bytes.decimal found.length ++ utf8 " issues (" ++
        Bytes.decimal errors ++ utf8 " errors)."))
      ⟨s, w.disk, if errors > 0 then some .issues else none⟩

def build (w : World) (p : Parsed) : Ending :=
  match openContext w p with
  | (.error f, s) => ⟨s, w.disk, some f⟩
  | (.ok o, s) =>
    let errors := errorCount o.snapshot.diagnostics
    let s := s.printError (o.snapshot.diagnostics.flatMap diagnosticLine)
    let s := if errors = 0 then s
      else s.log (Log.info (utf8 "Building despite " ++ Bytes.decimal errors ++ utf8 " errors."))
    let text := o.snapshot.tree.print (if p.isOn "raw" then .raw else .evaluated)
    match p.text "o" with
    | [] => ⟨s.print text, w.disk, none⟩
    | path =>
      match w.disk.create path text with
      | .ok disk => ⟨s, disk, none⟩
      | .error e => ⟨s, w.disk, some (.output e)⟩

def query (w : World) (p : Parsed) : Ending :=
  match openContext w p with
  | (.error f, s) => ⟨s, w.disk, some f⟩
  | (.ok o, s) =>
    let t := o.snapshot.tree
    let spec := (p.last? "n").getD (utf8 "/")
    match t.named? spec with
    | some id =>
      match t.summary o.board id with
      | .ok text => ⟨s.print text, w.disk, none⟩
      | .error p => ⟨s, w.disk, some (.crash p)⟩
    | none => ⟨s, w.disk, some (.noNode spec)⟩

def serverConfig (w : World) (p : Parsed) : Except Config.Problem (Option Config) :=
  match p.text "c" with
  | [] => .ok none
  | file => (Config.load w.disk file).map some

def inspectorOf (p : Parsed) : Except Failure (Option Inspector) :=
  match p.text "visualize" with
  | [] => .ok none
  | address =>
    match addressProblem? address with
    | some problem => .error (.listen address problem)
    | none => .ok (some .empty)

def serverEnvironment (w : World) : Server.Environment :=
  ⟨w.disk.source, w.disk, w.home, w.begun, w.patience⟩

def Screen.display (s : Screen) (outputs : List Server.Output) : Screen :=
  (s.print (Server.frames outputs)).logAll (outputs.filterMap Server.Output.record?)

def startServer (w : World) (p : Parsed) : Except Failure Server × Screen :=
  match serverConfig w p with
  | .error e => (.error (.config e), .blank)
  | .ok config =>
    let logger := (config.map fun c => loggerOf c false).getD Screen.blank.logger
    ((inspectorOf p).map (.start config), { Screen.blank with logger })

def serve (w : World) (p : Parsed) : Ending :=
  match startServer w p with
  | (.error f, s) => ⟨s, w.disk, some f⟩
  | (.ok server, s) =>
    let c := server.run (serverEnvironment w) w.input
    ⟨s.display c.outputs, w.disk, (c.crash.map .crash).or (c.problem.map .stream)⟩

def withFlags (w : World) (set : FlagSet) (args : List Bytes) (run : Parsed → Ending) : Outcome :=
  match set.parse args with
  | .error problem => ⟨problem.exitCode, [], set.complaint problem, w.disk⟩
  | .ok p => (run p).outcome set.command

def run (w : World) : List Bytes → Outcome
  | [] => ⟨1, [], usage, w.disk⟩
  | command :: args =>
    if command = utf8 "lsp" then withFlags w serverFlags args (serve w)
    else if command = utf8 "check" then withFlags w checkFlags args (check w)
    else if command = utf8 "build" then withFlags w buildFlags args (build w)
    else if command = utf8 "query" then withFlags w queryFlags args (query w)
    else if [utf8 "-h", utf8 "--help", utf8 "help"].elem command then ⟨0, usage, [], w.disk⟩
    else ⟨1, [], utf8 "Unknown command: " ++ command ++ utf8 "\n\n" ++ usage, w.disk⟩

end DeviceTree.Command
