import DeviceTree.Binding.Loader
import DeviceTree.Tree.Check

namespace DeviceTree.Session

abbrev ContextId := Nat

-- Files are read all at once. For each context, `begun` are the roots whose reading had begun when one of
-- them failed, in the order in which it ended.
structure Environment where
  source : Source
  includeDirs : List Bytes
  begun : ContextId → List Bytes

inductive ParseState where
  | unparsed | parsing | parsed
  deriving DecidableEq, Repr

def ParseState.name : ParseState → Bytes
  | .unparsed => utf8 "unparsed"
  | .parsing => utf8 "parsing"
  | .parsed => utf8 "parsed"

structure Entry where
  path : Bytes
  -- Tells this entry from earlier and later ones of the same path.
  serial : Nat
  -- Work that began on an entry may go on after the session has dropped it.
  live : Bool
  text : Bytes
  isOpen : Bool
  generation : Nat
  parsed : Option File
  state : ParseState
  -- The timer set for this file, until its callback has begun.
  timer : Option Nat
  -- Callbacks of any other timer have been superseded.
  timerId : Nat

structure Snapshot where
  tree : Tree
  diagnostics : List Diagnostic
  generation : Nat

structure LoadError where
  wave : List Bytes
  path : Bytes
  cause : ReadError
  deriving DecidableEq, Repr

def LoadError.message (e : LoadError) : Bytes :=
  utf8 "loading [" ++ Bytes.join (utf8 " ") e.wave ++ utf8 "]: reading " ++ e.path ++ utf8 ": " ++
    e.cause.message

structure Context where
  name : Bytes
  base : Bytes
  overlays : List Bytes
  snapshot : Option Snapshot
  deps : List Bytes
  dirty : Bool
  merging : Bool
  removed : Bool
  generation : Nat
  failure : Option LoadError

def Context.roots (c : Context) : List Bytes := c.base :: c.overlays

structure Timer where
  path : Bytes
  id : Nat
  deriving DecidableEq, Repr

structure Job where
  path : Bytes
  serial : Nat
  generation : Nat
  text : Bytes
  isOpen : Bool

-- What follows once files are loaded.
inductive Goal where
  | openContext (context : ContextId)
  | mergeDependents (path : Bytes)

inductive Task where
  | fired (timer : Timer)
  | parse (path : Bytes) (serial generation : Nat) (text : Bytes)
  | store (serial generation : Nat) (file : File)
  -- Files that are not parsed yet are claimed, read and stored, wave after wave of includes.
  | claim (wave : List Bytes) (isRoots : Bool) (goal : Goal)
  | read (wave : List Bytes) (jobs : List Job) (isRoots : Bool) (goal : Goal)
  | collect (results : List (Job × Option File)) (failure : Option LoadError) (goal : Goal)
  | retry (failure : Option LoadError) (goal : Goal)
  | reload (path : Bytes)
  | enroll (context : ContextId)
  | dependents (path : Bytes)
  | bindings (paths : List Bytes)
  | request (contexts : List ContextId) (next : Task)
  | release
  -- One round of a merge loop begins, and its result is stored.
  | merge (context : ContextId)
  | publish (context : ContextId) (tree : Tree)

inductive Event where
  | changed (context : ContextId) (generation : Nat)
  | deleted (context : ContextId)
  deriving DecidableEq, Repr

end Session

structure Session where
  entries : List Session.Entry
  contexts : Array Session.Context
  enrolled : List Session.ContextId
  current : Option Session.ContextId
  bindings : Option Catalog
  armed : List Session.Timer
  tasks : List Session.Task
  lastTimer : Nat
  lastSerial : Nat
  pending : Int
  events : List Session.Event
  crash : Option Panic

namespace Session

def empty : Session := ⟨[], #[], [], none, none, [], [], 0, 0, 0, [], none⟩

def entry? (s : Session) (path : Bytes) : Option Entry :=
  s.entries.find? fun e => e.live && e.path = path

def entryBySerial? (s : Session) (serial : Nat) : Option Entry :=
  s.entries.find? (·.serial = serial)

def updateEntry (s : Session) (serial : Nat) (f : Entry → Entry) : Session :=
  { s with entries := s.entries.map fun e => if e.serial = serial then f e else e }

def ensureEntry (s : Session) (path : Bytes) : Entry × Session :=
  match s.entry? path with
  | some e => (e, s)
  | none =>
    let serial := s.lastSerial + 1
    let e : Entry := ⟨path, serial, true, [], false, 0, none, .unparsed, none, 0⟩
    (e, { s with entries := s.entries ++ [e], lastSerial := serial })

def context? (s : Session) (id : ContextId) : Option Context := s.contexts[id]?

def updateContext (s : Session) (id : ContextId) (f : Context → Context) : Session :=
  { s with contexts := s.contexts.modify id f }

def uses (s : Session) (id : ContextId) (path : Bytes) : Bool :=
  match s.context? id with
  | some c => c.deps.elem path
  | none => false

def isUsed (s : Session) (path : Bytes) : Bool := s.enrolled.any (s.uses · path)

def dependentsOf (s : Session) (path : Bytes) : List ContextId := s.enrolled.filter (s.uses · path)

def addPending (s : Session) : Session := { s with pending := s.pending + 1 }
def donePending (s : Session) : Session := { s with pending := s.pending - 1 }

-- Stops the timer of a file. A callback that has begun finds itself superseded.
def cancelTimer (s : Session) (e : Entry) : Session :=
  let running := match e.timer with
    | some id => s.armed.any (·.id = id)
    | none => false
  let s := if running then
      { s.donePending with armed := s.armed.filter fun t => e.timer != some t.id }
    else s
  let id := s.lastTimer + 1
  { s.updateEntry e.serial fun e => { e with timer := none, timerId := id } with lastTimer := id }

def dropEntry (s : Session) (e : Entry) : Session :=
  (s.cancelTimer e).updateEntry e.serial fun e => { e with live := false }

def isBusy (s : Session) (path : Bytes) : Bool :=
  match s.entry? path with
  | some e => e.timer.isSome || e.state = .parsing
  | none => false

def depsBusy (s : Session) (c : Context) : Bool :=
  c.deps.any fun path =>
    s.isBusy path ||
      match (s.entry? path).bind (·.parsed) with
      | some f => f.includes.any fun i => (i.target.map s.isBusy).getD false
      | none => false

def parsedFiles (s : Session) : List File :=
  (s.entries.filter (·.live)).filterMap (·.parsed)

def includesOf (f : File) : List Bytes :=
  f.includes.filterMap fun i => if i.decl.isHeader then none else i.target

def requestMerge (s : Session) (id : ContextId) : Session :=
  match s.context? id with
  | none => s
  | some c =>
    if c.removed then s
    else if c.merging then s.updateContext id fun c => { c with dirty := true }
    else
      let s := s.updateContext id fun c => { c with dirty := true, merging := true }
      { s.addPending with tasks := s.tasks ++ [.merge id] }

end Session
end DeviceTree
