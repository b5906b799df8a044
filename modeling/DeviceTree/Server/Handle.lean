import DeviceTree.Server.Frame
import DeviceTree.Json.Parser
import DeviceTree.Json.Printer
import DeviceTree.Server.Start

namespace DeviceTree.Server

def capabilities : Json :=
  .ofMembers [
    ("capabilities", .ofMembers [
      ("textDocumentSync", .nat 1),
      ("hoverProvider", .bool true),
      ("definitionProvider", .bool true),
      ("referencesProvider", .bool true),
      ("documentLinkProvider", .ofMembers [("resolveProvider", .bool false)])]),
    ("serverInfo", .ofMembers [("name", .string (utf8 "dtt"))])]

-- A document is opened: its text counts from now on, and its context becomes the current one.
-- A file outside every context becomes its own.
def onOpen (env : Environment) (path text : Bytes) (sv : Server) : List Output × Server :=
  match sv.session with
  | none => ([], sv)
  | some s =>
    let s := (s.change path text).setCurrent path
    let (out, sv) := sv.observe s
    match s.current with
    | some id => andThen (out, sv) (·.present id)
    | none =>
      match openContext env (Path.base path) path [] sv with
      | (.error e, more, sv) =>
        (out ++ more ++ [warn "cannot open context" [field "file" path, field "error" e.message]],
          sv)
      | (.ok _, more, sv) => andThen (out ++ more, sv) fun sv =>
        let sv := sv.setCurrent path
        match sv.current? with
        | some id => sv.present id
        | none => ([], sv)

-- Only the last text of a series of changes counts.
def onChange (path : Bytes) (texts : List Bytes) (sv : Server) : List Output × Server :=
  match sv.session, texts.getLast? with
  | some s, some text => sv.observe (s.change path text)
  | _, _ => ([], sv)

def onClose (path : Bytes) (sv : Server) : List Output × Server :=
  match sv.session with
  | some s => sv.observe (s.close path)
  | none => ([], sv)

def treeFor (path : Bytes) (sv : Server) : Option (Session.ContextId × Tree) × Server :=
  let sv := sv.setCurrent path
  match sv.current? with
  | some id => ((sv.snapshot? id).map fun s => (id, s.tree), sv)
  | none => (none, sv)

def focusOn (t : Tree) (h : Tree.Hit) (sv : Server) : Server :=
  match h.node? with
  | some id => { sv with inspector := sv.inspector.map fun i => (i.setTree t).setFocus id }
  | none => sv

def hoverJson (content : Bytes) : Json :=
  if content = [] then .null
  else .ofMembers [("contents",
    .ofMembers [("kind", .string (utf8 "markdown")), ("value", .string content)])]

def onHover (p : Place) (sv : Server) : Except Panic Json × Server :=
  match treeFor p.path sv with
  | (none, sv) => (.ok .null, sv)
  | (some (id, t), sv) =>
    let hit := t.query p.path p.position
    match t.describeHit (sv.boards.lookup id) hit with
    | .error panic => (.error panic, { sv with crash := some panic })
    | .ok content => (.ok (hoverJson content), focusOn t hit sv)

def onDefinition (p : Place) (sv : Server) : Answer × Server :=
  match treeFor p.path sv with
  | (none, sv) => (.absent, sv)
  | (some (_, t), sv) =>
    match t.definitionAt p.path p.position with
    | [] => (.absent, sv)
    | found => (.result (.array (found.map locationJson)), sv)

def onReferences (p : Place) (withDeclarations : Bool) (sv : Server) : Json × Server :=
  match treeFor p.path sv with
  | (none, sv) => (.null, sv)
  | (some (_, t), sv) =>
    match t.referencesAt p.path p.position withDeclarations with
    | [] => (.null, sv)
    | found => (.array (found.map locationJson), sv)

def onLinks (path : Bytes) (sv : Server) : Json :=
  match sv.session.bind (·.fileAt? path) with
  | some f => .array (f.includes.filterMap linkJson?)
  | none => .null

structure Reaction where
  outputs : List Output
  server : Server
  stop : Bool

def Reaction.ofAnswer (id : Json) (answer : Answer) (sv : Server) : Reaction :=
  ⟨[.response id answer], sv, false⟩

def Reaction.quiet (step : List Output × Server) : Reaction := ⟨step.1, step.2, false⟩

def malformedParams : Bytes := utf8 "malformed parameters"

def react (env : Environment) (id : Json) (sv : Server) : Request → Reaction
  | .connect root =>
    (match sv.connect env root with
    | .ok step => .quiet (andThen step fun sv => ([.response id (.result capabilities)], sv))
    | .error e => .ofAnswer id (.error invalidParams e.message) sv)
  | .initialized | .ignored => ⟨[], sv, false⟩
  | .shutdown => .ofAnswer id .absent sv
  | .exit => ⟨[], sv, true⟩
  | .didOpen uri text => .quiet (onOpen env (Uri.toPath uri) text sv)
  | .didChange uri texts => .quiet (onChange (Uri.toPath uri) texts sv)
  | .didClose uri => .quiet (onClose (Uri.toPath uri) sv)
  | .hover p =>
    (match onHover p sv with
    | (.ok result, sv) => .ofAnswer id (.result result) sv
    | (.error _, sv) => ⟨[], sv, true⟩)
  | .definition p =>
    let (answer, sv) := onDefinition p sv
    .ofAnswer id answer sv
  | .references p withDeclarations =>
    let (result, sv) := onReferences p withDeclarations sv
    .ofAnswer id (.result result) sv
  | .documentLink uri => .ofAnswer id (.result (onLinks (Uri.toPath uri) sv)) sv
  | .unknown method =>
    (match id with
    | .null => ⟨[], sv, false⟩
    | id => .ofAnswer id (.error methodNotFound (utf8 "method not found: " ++ method)) sv)
  | .malformed => .ofAnswer id (.error invalidParams malformedParams) sv

def handle (env : Environment) (sv : Server) (body : Bytes) : Reaction :=
  match (Json.parse body).bind Message.ofJson? with
  | none => ⟨[warn "malformed message" []], sv, false⟩
  | some m => react env m.id sv (.ofMessage m)

structure Conversation where
  outputs : List Output
  problem : Option Frame.Problem
  crash : Option Panic

-- Serves a stream until the client leaves. Every message takes at least one byte. No timer
-- runs out between two messages that are there already.
def serve (env : Environment) : (fuel : Nat) → Server → Bytes → Conversation
  | 0, _, _ => ⟨[], none, none⟩
  | fuel + 1, sv, input =>
    match Frame.read input with
    | .done => ⟨[], none, none⟩
    | .failed p => ⟨[], some p, none⟩
    | .message body rest =>
      let r := sv.handle env body
      if r.stop || r.server.crash.isSome then ⟨r.outputs, none, r.server.crash⟩
      else
        let (out, sv) := r.server.work env
        if sv.crash.isSome then ⟨r.outputs ++ out, none, sv.crash⟩
        else
          let c := serve env fuel sv rest
          { c with outputs := r.outputs ++ out ++ c.outputs }

def run (env : Environment) (sv : Server) (input : Bytes) : Conversation :=
  serve env (input.length + 1) sv input

def problemMessage (p : Frame.Problem) : Bytes := utf8 "reading message: " ++ p.message

def frames (outputs : List Output) : Bytes :=
  (outputs.filterMap Output.message?).flatMap fun v => Frame.write v.print

end DeviceTree.Server
