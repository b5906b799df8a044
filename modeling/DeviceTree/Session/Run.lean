import DeviceTree.Session.Task

namespace DeviceTree.Session

-- New text for a file. It is parsed once the file has been quiet for the waiting time; a
-- timer that is still running begins anew.
def change (s : Session) (path text : Bytes) : Session :=
  let (e, s) := s.ensureEntry path
  let s := s.updateEntry e.serial fun e =>
    { e with text, isOpen := true, generation := e.generation + 1 }
  match e.timer.bind fun id => s.armed.find? (·.id = id) with
  | some t => { s with armed := s.armed.filter (· != t) ++ [t] }
  | none =>
    let id := s.lastTimer + 1
    let s := s.updateEntry e.serial fun e => { e with timer := some id, timerId := id }
    { s.addPending with armed := s.armed ++ [⟨path, id⟩], lastTimer := id }

-- The editor has closed a file. A context that uses it sees what is on disk again.
def close (s : Session) (path : Bytes) : Session :=
  match s.entry? path with
  | none => s
  | some e =>
    let s := s.updateEntry e.serial fun e => { e with isOpen := false, text := [] }
    let s := s.cancelTimer e
    if s.isUsed path then { s with tasks := s.tasks ++ [.reload path] } else s.dropEntry e

def openContext (s : Session) (name base : Bytes) (overlays : List Bytes) : ContextId × Session :=
  let id := s.contexts.size
  let c : Context := ⟨name, base, overlays, none, base :: overlays, false, false, false, 0, none⟩
  let task := Task.claim c.roots true (.openContext id)
  (id, { s.addPending with contexts := s.contexts.push c, tasks := s.tasks ++ [task] })

def remove (s : Session) (id : ContextId) : Session :=
  match s.context? id with
  | none => s
  | some c =>
    if s.enrolled.elem id then
      let s := s.updateContext id fun c => { c with removed := true }
      let s := { s with
        enrolled := s.enrolled.filter (· != id)
        current := if s.current = some id then none else s.current }
      let s := c.deps.foldl (fun s path =>
        match s.entry? path with
        | some e => if e.isOpen || s.isUsed path then s else s.dropEntry e
        | none => s) s
      { s with events := s.events ++ [.deleted id] }
    else s

def loadBindings (s : Session) (paths : List Bytes) : Session :=
  { s.addPending with tasks := s.tasks ++ [.bindings paths] }

def contextFor? (s : Session) (path : Bytes) : Option ContextId :=
  s.enrolled.find? (s.uses · path)

-- Makes the first context that uses the file the current one, unless the current one does.
def setCurrent (s : Session) (path : Bytes) : Session :=
  match s.current with
  | some id => if s.uses id path then s else move
  | none => move
where
  move : Session :=
    match s.contextFor? path with
    | some id => { s with current := some id }
    | none => s

def stateOf (s : Session) (path : Bytes) : ParseState :=
  ((s.entry? path).map (·.state)).getD .unparsed

def fileAt? (s : Session) (path : Bytes) : Option File := (s.entry? path).bind (·.parsed)

def snapshot? (s : Session) (id : ContextId) : Option Snapshot :=
  (s.context? id).bind (·.snapshot)

def named? (s : Session) (name : Bytes) : Option ContextId :=
  let hasName (id : ContextId) := ((s.context? id).map (·.name)) = some name
  match s.enrolled.find? hasName with
  | some id => some id
  | none => (s.events.filterMap fun
      | .deleted id => some id
      | .changed .. => none).reverse.find? hasName

def stepFirst (env : Environment) (s : Session) : Session :=
  match s.tasks with
  | [] => s
  | task :: rest =>
    let (next, s) := advance env { s with tasks := rest } task
    { s with tasks := next.toList ++ s.tasks }

def fireFirst (s : Session) : Session :=
  match s.armed with
  | [] => s
  | t :: rest => { s with armed := rest, tasks := s.tasks ++ [.fired t] }

def nextTask? (env : Environment) (s : Session) : Option Session :=
  if s.tasks.isEmpty || s.crash.isSome then none else some (stepFirst env s)

def next? (env : Environment) (s : Session) : Option Session :=
  if s.crash.isSome then none
  else if !s.tasks.isEmpty then some (stepFirst env s)
  else if !s.armed.isEmpty then some s.fireFirst
  else none

def isReady (s : Session) (id : ContextId) : Bool :=
  match s.context? id with
  | some c => c.failure.isSome || c.snapshot.isSome
  | none => true

def nextUntilReady? (env : Environment) (id : ContextId) (s : Session) : Option Session :=
  match s.nextTask? env with
  | some s => some s
  | none => if s.isReady id then none else s.next? env

def drive (next : Session → Option Session) : (fuel : Nat) → Session → Session
  | 0, s => s
  | fuel + 1, s =>
    match next s with
    | some s => drive next fuel s
    | none => s

def work (env : Environment) (fuel : Nat) (s : Session) : Session := drive (nextTask? env) fuel s

def settle (env : Environment) (fuel : Nat) (s : Session) : Session := drive (next? env) fuel s

def beginParse (s : Session) (path : Bytes) : Option Task × Session :=
  match s.armed.find? (·.path = path) with
  | some t => { s with armed := s.armed.filter (· != t) }.onFired t
  | none => (none, s)

def awaitReady (env : Environment) (id : ContextId) (fuel : Nat) (s : Session) : Session :=
  drive (nextUntilReady? env id) fuel s

end DeviceTree.Session
