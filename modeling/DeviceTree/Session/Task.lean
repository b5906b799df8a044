import DeviceTree.Session.State

namespace DeviceTree.Session

def onFired (s : Session) (t : Timer) : Option Task × Session :=
  match s.entry? t.path with
  | some e =>
    if e.timerId = t.id then
      (some (.parse t.path e.serial e.generation e.text),
        s.updateEntry e.serial fun e => { e with timer := none, state := .parsing })
    else (none, s.donePending)
  | none => (none, s.donePending)

-- A parse is stored only into the entry it was made for, and only if no edit came between.
def onStore (s : Session) (serial generation : Nat) (f : File) : Option Task × Session :=
  match s.entryBySerial? serial with
  | some e =>
    if e.live && e.generation = generation then
      (some (.claim (includesOf f) false (.mergeDependents f.path)),
        s.updateEntry serial fun e => { e with parsed := some f, state := .parsed })
    else (none, s.donePending)
  | none => (none, s.donePending)

def claimWave (s : Session) : List Bytes → List Job × Session
  | [] => ([], s)
  | path :: rest =>
    let (e, s) := s.ensureEntry path
    if e.parsed.isSome || e.state = .parsing then claimWave s rest
    else
      let s := s.updateEntry e.serial fun e => { e with state := .parsing }
      let (jobs, s) := claimWave s rest
      (⟨path, e.serial, e.generation, e.text, e.isOpen⟩ :: jobs, s)

def readJob (env : Environment) (j : Job) : Except ReadError File :=
  if j.isOpen then .ok (File.ofText env.source env.includeDirs j.path j.text)
  else File.read env.source env.includeDirs j.path

def Goal.begun (env : Environment) : Goal → List Bytes
  | .openContext id => env.begun id
  | .mergeDependents _ => []

def failureOf? (env : Environment) (wave : List Bytes) (j : Job) : Option LoadError :=
  match readJob env j with
  | .error cause => some ⟨wave, j.path, cause⟩
  | .ok _ => none

-- Of the roots that had begun, the failure that ended first.
def stopping? (env : Environment) (wave : List Bytes) (jobs : List Job) (goal : Goal) : Option LoadError :=
  (goal.begun env).findSome? fun path => (jobs.find? (·.path = path)).bind (failureOf? env wave)

def failureIn (env : Environment) (wave : List Bytes) (jobs : List Job) (isRoots : Bool) (goal : Goal) :
    Option LoadError :=
  if isRoots then (stopping? env wave jobs goal).or (jobs.findSome? (failureOf? env wave)) else none

-- A root whose reading has not begun when another fails comes to nothing, though it could be read.
def isGivenUp (env : Environment) (wave : List Bytes) (jobs : List Job) (isRoots : Bool) (goal : Goal) (j : Job) : Bool :=
  isRoots && (stopping? env wave jobs goal).isSome && !(goal.begun env).elem j.path

def resultOf (env : Environment) (wave : List Bytes) (jobs : List Job) (isRoots : Bool) (goal : Goal) (j : Job) :
    Option File :=
  if isGivenUp env wave jobs isRoots goal j then none else (readJob env j).toOption

def settleState (s : Session) (serial : Nat) : Session :=
  s.updateEntry serial fun e =>
    { e with state := if e.parsed.isSome then .parsed else .unparsed }

-- A file that came to nothing or was edited meanwhile goes back to the state its last parse left it in.
def collectResult (s : Session) (j : Job) (result : Option File) : List Bytes × Session :=
  match s.entryBySerial? j.serial, result with
  | some e, some f =>
    if e.generation = j.generation then
      (includesOf f, s.updateEntry j.serial fun e => { e with parsed := some f, state := .parsed })
    else ([], settleState s j.serial)
  | _, _ => ([], settleState s j.serial)

def collectResults (s : Session) : List (Job × Option File) → List Bytes × Session
  | [] => ([], s)
  | (j, result) :: rest =>
    let (found, s) := collectResult s j result
    let (more, s) := collectResults s rest
    (found ++ more, s)

def onReload (s : Session) (path : Bytes) : Option Task × Session :=
  let s := match s.entry? path with
    | some e => s.updateEntry e.serial fun e =>
      { e with generation := e.generation + 1, parsed := none, state := .unparsed }
    | none => s
  (some (.claim [path] false (.mergeDependents path)), s.addPending)

def afterLoad (failure : Option LoadError) (goal : Goal) : Task :=
  match goal, failure with
  | .openContext id, none => .enroll id
  | .openContext _, some _ => .release
  | .mergeDependents path, _ => .dependents path

def onRetry (s : Session) (failure : Option LoadError) (goal : Goal) : Option Task × Session :=
  let put := s.enrolled.filter fun id =>
    match s.context? id with
    | some c => c.dirty && !c.merging
    | none => false
  let s := match goal with
    | .openContext id => s.updateContext id fun c => { c with failure }
    | .mergeDependents _ => s
  (some (.request put (afterLoad failure goal)), s)

-- A round of a merge loop. A file that is busy will ask for the merge again.
def onMerge (s : Session) (id : ContextId) : Option Task × Session :=
  match s.context? id with
  | none => (none, s.donePending)
  | some c =>
    if !c.dirty || c.removed || s.depsBusy c then
      (none, (s.updateContext id fun c => { c with merging := false }).donePending)
    else
      let tree := Tree.merge c.name c.roots s.parsedFiles s.bindings
      (some (.publish id tree), s.updateContext id fun c => { c with dirty := false })

-- The tree is checked before it is stored, and a check that fails takes the whole program with it.
def onPublish (s : Session) (id : ContextId) (tree : Tree) : Option Task × Session :=
  match tree.check with
  | .error panic => (some (.publish id tree), { s with crash := some panic })
  | .ok found =>
    match s.context? id with
    | none => (none, s.donePending)
    | some c =>
      if c.removed then
        (none, (s.updateContext id fun c => { c with merging := false }).donePending)
      else
        let generation := c.generation + 1
        let s := s.updateContext id fun c =>
          { c with generation, deps := c.roots ++ tree.files,
                   snapshot := some ⟨tree, tree.diagnostics ++ found, generation⟩ }
        (some (.merge id), { s with events := s.events ++ [.changed id generation] })

def advance (env : Environment) (s : Session) : Task → Option Task × Session
  | .fired t => s.onFired t
  | .parse path serial generation text =>
    (some (.store serial generation (File.ofText env.source env.includeDirs path text)), s)
  | .store serial generation f => s.onStore serial generation f
  | .claim wave isRoots goal =>
    if wave.isEmpty then (some (.retry none goal), s)
    else
      let (jobs, s) := s.claimWave wave
      (some (.read wave jobs isRoots goal), s)
  | .read wave jobs isRoots goal =>
    (some (.collect (jobs.map fun j => (j, resultOf env wave jobs isRoots goal j))
      (failureIn env wave jobs isRoots goal) goal), s)
  | .collect results failure goal =>
    let (next, s) := s.collectResults results
    match failure with
    | some _ => (some (.retry failure goal), s)
    | none => (some (.claim next false goal), s)
  | .retry failure goal => s.onRetry failure goal
  | .reload path => s.onReload path
  | .enroll id => (some (.request [id] .release), { s with enrolled := s.enrolled ++ [id] })
  | .dependents path => (some (.request (s.dependentsOf path) .release), s)
  | .bindings paths =>
    let catalog := (Loader.load env.source .empty paths).catalog
    (some (.request s.enrolled .release), { s with bindings := some catalog })
  | .request [] next => (some next, s)
  | .request (id :: rest) next => (some (.request rest next), s.requestMerge id)
  | .release => (none, s.donePending)
  | .merge id => s.onMerge id
  | .publish id tree => s.onPublish id tree

end DeviceTree.Session
