import DeviceTree.Config.Basic
import DeviceTree.Inspector.State
import DeviceTree.Log
import DeviceTree.Server.Hover
import DeviceTree.Server.Message
import DeviceTree.Server.Navigate
import DeviceTree.Session.Run

namespace DeviceTree

namespace Server

inductive Answer where
  | absent
  | result (value : Json)
  | error (code : Int) (message : Bytes)

inductive Output where
  | response (id : Json) (answer : Answer)
  | report (report : Report)
  | log (record : Log.Record)

def methodNotFound : Int := -32601
def invalidParams : Int := -32602

def envelope (members : List (String × Json)) : Json :=
  .ofMembers (("jsonrpc", .string (utf8 "2.0")) :: members)

def idMember (id : Json) : List (String × Json) :=
  match id with
  | .null => []
  | id => [("id", id)]

def answerMember : Answer → List (String × Json)
  | .absent => []
  | .result v => [("result", v)]
  | .error code message =>
    [("error", .ofMembers [("code", .int code), ("message", .string message)])]

def Output.message? : Output → Option Json
  | .response id answer => some (envelope (idMember id ++ answerMember answer))
  | .report r => some (envelope
      [("method", .string (utf8 "textDocument/publishDiagnostics")), ("params", reportJson r)])
  | .log _ => none

def Output.record? : Output → Option Log.Record
  | .log r => some r
  | _ => none

structure Environment where
  source : Source
  disk : Disk
  home : Bytes
  begun : Session.ContextId → List Bytes
  patience : Nat

end Server

structure Server where
  config : Option Config
  session : Option Session
  boards : List (Session.ContextId × Board)
  published : List Bytes
  inspector : Option Inspector
  seen : Nat
  crash : Option Panic

namespace Server

def start (config : Option Config) (inspector : Option Inspector) : Server :=
  ⟨config, none, [], [], inspector, 0, none⟩

def sessionEnvironment (env : Environment) (sv : Server) : Session.Environment :=
  ⟨env.source, (sv.config.map (·.includeDirs)).getD [], env.begun⟩

def current? (sv : Server) : Option Session.ContextId := sv.session.bind (·.current)

def snapshot? (sv : Server) (id : Session.ContextId) : Option Session.Snapshot :=
  sv.session.bind (·.snapshot? id)

def setCurrent (sv : Server) (path : Bytes) : Server :=
  match sv.session with
  | some s => { sv with session := some (s.setCurrent path) }
  | none => sv

def present (sv : Server) (id : Session.ContextId) : List Output × Server :=
  match sv.snapshot? id with
  | none => ([], sv)
  | some s =>
    let (reports, published) := publish s sv.published
    (reports.map .report,
      { sv with published, inspector := sv.inspector.map (·.setTree s.tree) })

def onEvent (sv : Server) : Session.Event → List Output × Server
  | .changed id _ => if sv.current? = some id then sv.present id else ([], sv)
  | .deleted id => ([], { sv with boards := sv.boards.filter (·.1 != id) })

def onEvents (sv : Server) : List Session.Event → List Output × Server
  | [] => ([], sv)
  | e :: rest =>
    let (out, sv) := sv.onEvent e
    let (more, sv) := sv.onEvents rest
    (out ++ more, sv)

def observe (sv : Server) (s : Session) : List Output × Server :=
  { sv with session := some s, seen := s.events.length, crash := s.crash }.onEvents (s.events.drop sv.seen)

def drive (next : Session → Option Session) : (fuel : Nat) → Server → List Output × Server
  | 0, sv => ([], sv)
  | fuel + 1, sv =>
    match sv.session.bind next with
    | none => ([], sv)
    | some s =>
      let (out, sv) := sv.observe s
      let (more, sv) := drive next fuel sv
      (out ++ more, sv)

def work (env : Environment) (sv : Server) : List Output × Server :=
  drive (Session.nextTask? (sv.sessionEnvironment env)) env.patience sv

def settle (env : Environment) (sv : Server) : List Output × Server :=
  drive (Session.next? (sv.sessionEnvironment env)) env.patience sv

def awaitReady (env : Environment) (id : Session.ContextId) (sv : Server) :
    List Output × Server :=
  drive (Session.nextUntilReady? (sv.sessionEnvironment env) id) env.patience sv

end Server
end DeviceTree
