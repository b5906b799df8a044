import DeviceTree.Proofs.Server.Responses
import DeviceTree.Proofs.Session.Arrival

namespace DeviceTree.Server

open Session (AtRest Runs Settles Call)

variable {env : Environment} {sv sv' : Server} {s t : Session} {config : Option Config}

structure Shows (config : Option Config) (s : Session) (sv : Server) : Prop where
  config : sv.config = config
  session : sv.session = some s

def environmentFor (env : Environment) (config : Option Config) : Session.Environment :=
  ⟨env.source, (config.map (·.includeDirs)).getD [], env.begun⟩

section Crashing

theorem onEvent_crash (sv : Server) (e : Session.Event) : (sv.onEvent e).2.crash = sv.crash := by
  unfold Server.onEvent
  split
  · split
    · unfold Server.present
      split <;> rfl
    · rfl
  · rfl

theorem onEvents_crash (sv : Server) (events : List Session.Event) : (sv.onEvents events).2.crash = sv.crash := by
  induction events generalizing sv with
  | nil => rfl
  | cons e rest ih => exact (ih _).trans (onEvent_crash sv e)

theorem observe_crash (sv : Server) (t : Session) : (sv.observe t).2.crash = t.crash := onEvents_crash _ _

theorem andThen_crash (first : List Output × Server) {second : Server → List Output × Server}
    (same : (second first.2).2.crash = first.2.crash) : (andThen first second).2.crash = first.2.crash := by
  cases crash : first.2.crash with
  | none => rw [andThen_running crash, same, crash]
  | some p => rw [andThen_stopped crash, crash]

theorem readBoard_crash (env : Environment) (c : ContextConfig) (id : Session.ContextId) (sv : Server) :
    (readBoard env c id sv).2.crash = sv.crash := by
  unfold readBoard
  split
  · rfl
  · split <;> rfl

end Crashing

namespace Shows

theorem environment (shows : Shows config s sv) : sv.sessionEnvironment env = environmentFor env config := by
  rw [sessionEnvironment, shows.config, environmentFor]

theorem present (shows : Shows config s sv) (id : Session.ContextId) : Shows config s (sv.present id).2 := by
  unfold Server.present
  split
  · exact shows
  · exact ⟨shows.config, shows.session⟩

theorem onEvent (shows : Shows config s sv) (e : Session.Event) : Shows config s (sv.onEvent e).2 := by
  unfold Server.onEvent
  split
  · split
    · exact shows.present _
    · exact shows
  · exact ⟨shows.config, shows.session⟩

theorem onEvents (shows : Shows config s sv) (events : List Session.Event) : Shows config s (sv.onEvents events).2 := by
  induction events generalizing sv with
  | nil => exact shows
  | cons e rest ih => exact ih (shows.onEvent e)

theorem observe (shows : Shows config s sv) (t : Session) : Shows config t (sv.observe t).2 := by
  have taken : Shows config t { sv with session := some t, seen := t.events.length, crash := t.crash } := ⟨shows.config, rfl⟩
  exact taken.onEvents _

theorem andThen (first : List Output × Server) {second : Server → List Output × Server} (shows : Shows config s first.2)
    (goes : Shows config s (second first.2).2) : Shows config s (andThen first second).2 := by
  cases crash : first.2.crash with
  | none =>
    rw [andThen_running crash]
    exact goes
  | some p =>
    rw [andThen_stopped crash]
    exact shows

theorem drive (shows : Shows config s sv) (next : Session → Option Session) (fuel : Nat) :
    Shows config (Session.drive next fuel s) (Server.drive next fuel sv).2 := by
  induction fuel generalizing s sv with
  | zero => exact shows
  | succ fuel ih =>
    unfold Server.drive Session.drive
    rw [shows.session, Option.bind_some]
    cases next s with
    | none => exact shows
    | some t => exact ih (shows.observe t)

theorem drive_crash (shows : Shows config s sv) (next : Session → Option Session) (fuel : Nat) (same : sv.crash = s.crash) :
    (Server.drive next fuel sv).2.crash = (Session.drive next fuel s).crash := by
  induction fuel generalizing s sv with
  | zero => exact same
  | succ fuel ih =>
    unfold Server.drive Session.drive
    rw [shows.session, Option.bind_some]
    cases next s with
    | none => exact same
    | some t => exact ih (shows.observe t) (observe_crash sv t)

theorem setCurrent (shows : Shows config s sv) (path : Bytes) : Shows config (s.setCurrent path) (sv.setCurrent path) := by
  unfold Server.setCurrent
  rw [shows.session]
  exact ⟨shows.config, rfl⟩

theorem settle (shows : Shows config s sv) (env : Environment) :
    Shows config (Session.settle (environmentFor env config) env.patience s) (sv.settle env).2 := by
  have goes := shows.drive (Session.next? (environmentFor env config)) env.patience
  rw [← shows.environment] at goes ⊢
  exact goes

theorem openContext (shows : Shows config s sv) (env : Environment) (name base : Bytes) (overlays : List Bytes) :
    ∃ u answer out after, u = Session.awaitReady (environmentFor env config) s.contexts.size env.patience
        (s.openContext name base overlays).2 ∧
      Server.openContext env name base overlays sv = (answer, out, after) ∧ Shows config u after ∧ after.crash = u.crash ∧
      (((u.context? s.contexts.size).bind (·.failure)) = none → ∃ id, answer = .ok id) := by
  have seen := shows.observe (s.openContext name base overlays).2
  have goes := seen.drive (Session.nextUntilReady? (environmentFor env config) s.contexts.size) env.patience
  have crash := seen.drive_crash (Session.nextUntilReady? (environmentFor env config) s.contexts.size) env.patience
    (observe_crash sv _)
  rw [← seen.environment] at goes crash ⊢
  refine ⟨_, (Server.openContext env name base overlays sv).1, (Server.openContext env name base overlays sv).2.1,
    (Server.openContext env name base overlays sv).2.2, rfl, rfl, ?_⟩
  unfold Server.openContext
  rw [shows.session]
  dsimp only
  split
  · rename_i failure failed
    refine ⟨goes, crash, fun fine => ?_⟩
    rw [show (Server.awaitReady env (s.openContext name base overlays).1 _).2.session = _ from goes.session,
      Option.bind_some] at failed
    exact absurd (failed.symm.trans fine) nofun
  · exact ⟨goes, crash, fun _ => ⟨_, rfl⟩⟩

theorem loadBindings (shows : Shows config s sv) (env : Environment) (files : List Bytes) (same : sv.crash = s.crash) :
    ∃ u, u = (if files.isEmpty then s else Session.work (environmentFor env config) env.patience (s.loadBindings files)) ∧
      Shows config u (Server.loadBindings env files sv).2 ∧ (Server.loadBindings env files sv).2.crash = u.crash := by
  have seen := shows.observe (s.loadBindings files)
  have goes := seen.drive (Session.nextTask? (environmentFor env config)) env.patience
  have crash := seen.drive_crash (Session.nextTask? (environmentFor env config)) env.patience (observe_crash sv _)
  rw [← seen.environment] at goes crash ⊢
  refine ⟨_, rfl, ?_⟩
  unfold Server.loadBindings
  rw [shows.session]
  dsimp only
  split
  · exact ⟨shows, same⟩
  · exact ⟨goes, crash⟩

theorem readBoard (shows : Shows config s sv) (env : Environment) (c : ContextConfig) (id : Session.ContextId) :
    Shows config s (Server.readBoard env c id sv).2 := by
  unfold Server.readBoard
  split
  · exact shows
  · split
    · exact ⟨shows.config, shows.session⟩
    · exact shows

theorem openConfigured (shows : Shows config s sv) (env : Environment) (c : ContextConfig) :
    ∃ u, u = Session.awaitReady (environmentFor env config) s.contexts.size env.patience
        (s.openContext c.name c.board c.overlays).2 ∧
      Shows config u (Server.openConfigured env c sv).2 ∧ (Server.openConfigured env c sv).2.crash = u.crash := by
  obtain ⟨u, answer, out, after, made, equal, shows', crash, -⟩ := shows.openContext env c.name c.board c.overlays
  refine ⟨u, made, ?_⟩
  unfold Server.openConfigured
  rw [equal]
  cases answer with
  | error e => exact ⟨shows', crash⟩
  | ok id => exact ⟨andThen (out, after) shows' (shows'.readBoard env c id),
      (andThen_crash (out, after) (readBoard_crash env c id after)).trans crash⟩

end Shows

def Poised (s : Session) : Prop := AtRest s ∧ ∀ id, s.current = some id → id ∈ s.enrolled

theorem poised_call {env : Session.Environment} {c : Call} (poised : Poised s) (settles : Settles env s c t) : Poised t := by
  obtain ⟨outcome, rest⟩ := Session.settles_outcome poised.1 settles
  exact ⟨rest, outcome.attends poised.2⟩

theorem poised_attend (poised : Poised s) (path : Bytes) : Poised (s.setCurrent path) :=
  ⟨poised.1.attend path, Session.attend_enrolled poised.2 path⟩

def Idle (sv : Server) : Prop := ∀ s, sv.session = some s → s.tasks = [] ∧ s.armed = []

-- At the start nobody gives up waiting: each context finds the session at rest, and so does the client.
def Opens (env : Environment) : List ContextConfig → Server → Prop
  | [], sv => Idle sv
  | c :: rest, sv => Idle sv ∧ Opens env rest (openConfigured env c sv).2

theorem Opens.idle {contexts : List ContextConfig} (opens : Opens env contexts sv) : Idle sv := by
  cases contexts with
  | nil => exact opens
  | cons c rest => exact opens.1

theorem poised_running (poised : Poised s) : s.crash = none := poised.1.sound.stuck poised.1.tasks

theorem openAll_poised {contexts : List ContextConfig} (shows : Shows config s sv) (poised : Idle sv → Poised s)
    (opens : Opens env contexts sv) : ∃ t, Shows config t (openAll env contexts sv).2 ∧ Poised t := by
  induction contexts generalizing s sv with
  | nil => exact ⟨s, shows, poised opens⟩
  | cons c rest ih =>
    obtain ⟨idle, opens⟩ := opens
    obtain ⟨u, made, shows', crash⟩ := shows.openConfigured env c
    have poised' : Idle (openConfigured env c sv).2 → Poised u := by
      intro idle'
      obtain ⟨tasks, armed⟩ := idle' _ shows'.session
      have runs := Session.awaitReady_runs (environmentFor env config) s.contexts.size env.patience
        (s.openContext c.name c.board c.overlays).2
      rw [← made] at runs
      exact poised_call (c := .openContext c.name c.board c.overlays) (poised idle) ⟨Session.runs_works runs, tasks, armed⟩
    rw [openAll, andThen_running (crash.trans (poised_running (poised' opens.idle)))]
    exact ih shows' poised' opens

def begun (env : Environment) (config : Config) (sv : Server) : Server :=
  (loadBindings env ((config.allBindings env.disk).toOption.getD [])
    { sv with config := some config, session := some .empty, boards := [], seen := 0, crash := none }).2

theorem begin_server {config : Config} (root : Bytes) (running : (begun env config sv).crash = none) :
    (begin env config root sv).2 = (openAll env config.contexts (begun env config sv)).2 := by
  have last : ∀ (first : List Output × Server) (told : Server → List Output),
      (andThen first fun sv => (told sv, sv)).2 = first.2 := by
    rintro ⟨out, sv⟩ told
    unfold andThen
    dsimp only
    split <;> rfl
  unfold begin begun at *
  cases found : config.allBindings env.disk <;> rw [found] at running <;>
    exact (last _ _).trans (congrArg (·.2) (andThen_running running (openAll env config.contexts)) :)

theorem begin_poised {config : Config} (root : Bytes) (opens : Opens env config.contexts (begun env config sv)) :
    ∃ s, Shows (some config) s (begin env config root sv).2 ∧ Poised s := by
  have fresh : Shows (some config) .empty
      { sv with config := some config, session := some .empty, boards := [], seen := 0, crash := none } := ⟨rfl, rfl⟩
  obtain ⟨u, made, shows, crash⟩ := fresh.loadBindings env ((config.allBindings env.disk).toOption.getD []) rfl
  have begins : Poised .empty := ⟨Session.empty_rests, nofun⟩
  have poised : Idle (begun env config sv) → Poised u := by
    intro idle
    obtain ⟨tasks, armed⟩ := idle _ shows.session
    split at made
    · exact made ▸ begins
    · subst made
      exact poised_call (c := .loadBindings _) begins ⟨Session.runs_works (Session.work_runs _ _ _), tasks, armed⟩
  obtain ⟨t, shown, poised'⟩ := openAll_poised shows poised opens
  exact ⟨t, begin_server root (crash.trans (poised_running (poised opens.idle))) ▸ shown, poised'⟩

-- A request is handled, and then the session comes to rest. An editor that opens a document does not give up waiting.
structure Handled (env : Environment) (sv : Server) (id : Json) (request : Request) (sv' : Server) : Prop where
  waited : ∀ uri text, request = .didOpen uri text → ∀ s, (react env id sv request).server.session = some s → s.tasks = []
  settled : sv' = ((react env id sv request).server.settle env).2
  idle : Idle sv'

-- The states of a server whose client connected and then waited after each request. What there is to be read may change from
-- one request to the next.
inductive Talks : Server → Prop where
  | connected {env : Environment} {sv : Server} {root : Bytes} {config : Config}
      (connects : sv.connect env root = .ok (begin env config root sv))
      (opens : Opens env config.contexts (begun env config sv)) : Talks (begin env config root sv).2
  | handled {env : Environment} {sv sv' : Server} {id : Json} {request : Request} (before : Talks sv)
      (other : ∀ root, request ≠ .connect root) (handled : Handled env sv id request sv') : Talks sv'

section Handling

variable {path : Bytes}

theorem treeFor_shows (shows : Shows config s sv) (path : Bytes) : Shows config (s.setCurrent path) (treeFor path sv).2 := by
  unfold treeFor
  dsimp only
  split <;> exact shows.setCurrent path

theorem focusOn_shows (shows : Shows config s sv) (tree : Tree) (h : Tree.Hit) : Shows config s (focusOn tree h sv) := by
  unfold focusOn
  split
  · exact ⟨shows.config, shows.session⟩
  · exact shows

theorem onHover_shows (shows : Shows config s sv) (p : Place) : Shows config (s.setCurrent p.path) (onHover p sv).2 := by
  have turned := treeFor_shows shows p.path
  unfold onHover
  rcases equal : treeFor p.path sv with ⟨_ | ⟨id, tree⟩, after⟩ <;> rw [equal] at turned
  · exact turned
  · dsimp only
    split
    · exact ⟨turned.config, turned.session⟩
    · exact focusOn_shows turned tree _

theorem onDefinition_server (p : Place) (sv : Server) : (onDefinition p sv).2 = (treeFor p.path sv).2 := by
  unfold onDefinition
  rcases treeFor p.path sv with ⟨_ | ⟨id, tree⟩, after⟩
  · rfl
  · dsimp only
    split <;> rfl

theorem onReferences_server (p : Place) (withDeclarations : Bool) (sv : Server) :
    (onReferences p withDeclarations sv).2 = (treeFor p.path sv).2 := by
  unfold onReferences
  rcases treeFor p.path sv with ⟨_ | ⟨id, tree⟩, after⟩
  · rfl
  · dsimp only
    split <;> rfl

inductive Takes (s : Session) : Session → Prop where
  | nothing : Takes s s
  | turn (path : Bytes) : Takes s (s.setCurrent path)
  | call (c : Call) : Takes s (c.apply s)

-- All requests but two leave the session with at most one call to carry out.
theorem react_takes (env : Environment) (shows : Shows config s sv) (id : Json) {request : Request}
    (other : ∀ root, request ≠ .connect root) (closed : ∀ uri text, request ≠ .didOpen uri text) :
    ∃ u, Shows config u (react env id sv request).server ∧ Takes s u := by
  cases request with
  | connect root => exact absurd rfl (other root)
  | didOpen uri text => exact absurd rfl (closed uri text)
  | initialized | ignored | shutdown | exit | malformed => exact ⟨s, shows, .nothing⟩
  | documentLink uri => exact ⟨s, shows, .nothing⟩
  | unknown method =>
    refine ⟨s, ?_, .nothing⟩
    simp only [react]
    split <;> exact shows
  | didChange uri texts =>
    simp only [react, Reaction.quiet, onChange, shows.session]
    cases texts.getLast? with
    | none => exact ⟨s, shows, .nothing⟩
    | some text => exact ⟨_, shows.observe _, .call (.change (Uri.toPath uri) text)⟩
  | didClose uri =>
    simp only [react, Reaction.quiet, onClose, shows.session]
    exact ⟨_, shows.observe _, .call (.close (Uri.toPath uri))⟩
  | hover p =>
    refine ⟨_, ?_, .turn p.path⟩
    have turned := onHover_shows shows p
    simp only [react]
    rcases equal : onHover p sv with ⟨_ | _, after⟩ <;> rw [equal] at turned <;> exact turned
  | definition p =>
    refine ⟨_, ?_, .turn p.path⟩
    have turned := treeFor_shows shows p.path
    rw [← onDefinition_server] at turned
    exact turned
  | references p withDeclarations =>
    refine ⟨_, ?_, .turn p.path⟩
    have turned := treeFor_shows shows p.path
    rw [← onReferences_server] at turned
    exact turned

theorem settle_poised {env : Session.Environment} {u : Session} (poised : Poised s) (takes : Takes s u) (runs : Runs env u t)
    (tasks : t.tasks = []) (armed : t.armed = []) : Poised t := by
  cases takes with
  | nothing =>
    cases Session.runs_idle runs poised.1.tasks poised.1.armed
    exact poised
  | turn path =>
    have turned := poised_attend poised path
    cases Session.runs_idle runs turned.1.tasks turned.1.armed
    exact turned
  | call c => exact poised_call poised ⟨Session.runs_works runs, tasks, armed⟩

theorem onOpen_turned (shows : Shows config s sv) {text : Bytes} {id : Session.ContextId}
    (current : ((s.change path text).setCurrent path).current = some id) :
    Shows config ((s.change path text).setCurrent path) (onOpen env path text sv).2 := by
  unfold onOpen
  rw [shows.session]
  dsimp only
  rw [current]
  exact Shows.andThen _ (shows.observe _) ((shows.observe _).present id)

theorem onOpen_alone (env : Environment) (shows : Shows config s sv) {text : Bytes}
    (current : ((s.change path text).setCurrent path).current = none) :
    ∃ u v, u = Session.awaitReady (environmentFor env config) ((s.change path text).setCurrent path).contexts.size env.patience
        (((s.change path text).setCurrent path).openContext (Path.base path) path []).2 ∧
      Shows config v (onOpen env path text sv).2 ∧ (v = u ∨ v = u.setCurrent path) ∧
      (((u.context? ((s.change path text).setCurrent path).contexts.size).bind (·.failure)) = none → u.crash = none →
        v = u.setCurrent path) := by
  have seen := shows.observe ((s.change path text).setCurrent path)
  obtain ⟨u, answer, out, after, made, equal, shows', crash, fine⟩ := seen.openContext env (Path.base path) path []
  unfold onOpen
  rw [shows.session]
  dsimp only
  rw [current]
  dsimp only
  rw [equal]
  cases answer with
  | error e =>
    refine ⟨u, u, made, shows', .inl rfl, fun unfailed => ?_⟩
    obtain ⟨id, impossible⟩ := fine unfailed
    cases impossible
  | ok id =>
    cases stopped : after.crash with
    | some p =>
      refine ⟨u, u, made, ?_, .inl rfl, fun _ running => ?_⟩
      · dsimp only
        rw [andThen_stopped stopped]
        exact shows'
      · rw [← crash, stopped] at running
        cases running
    | none =>
      refine ⟨u, u.setCurrent path, made, ?_, .inr rfl, fun _ _ => rfl⟩
      have turned := shows'.setCurrent path
      dsimp only
      rw [andThen_running stopped]
      dsimp only
      split
      · exact turned.present _
      · exact turned

theorem opened_turned {text : Bytes} {id : Session.ContextId} (shows : Shows config s sv) (poised : Poised s)
    (current : (s.setCurrent path).current = some id) (idle : Idle ((onOpen env path text sv).2.settle env).2) :
    ∃ t, Shows config t ((onOpen env path text sv).2.settle env).2 ∧ Poised t ∧ (t.Attends path ↔ s.isUsed path = true) := by
  rw [← Session.current_change poised.1.armed path text] at current
  have settled := (onOpen_turned shows current : Shows config _ (onOpen env path text sv).2).settle env
  obtain ⟨tasks, armed⟩ := idle _ settled.session
  have runs := Session.settle_runs (environmentFor env config) env.patience ((s.change path text).setCurrent path)
  rw [Session.setCurrent_change poised.1.armed path text] at runs settled tasks armed
  have settles : Settles (environmentFor env config) (s.setCurrent path) (.change path text) _ :=
    ⟨Session.runs_works runs, tasks, armed⟩
  exact ⟨_, settled, poised_call (poised_attend poised path) settles, Session.change_attends_iff poised.1 poised.2 settles⟩

theorem opened_alone {text : Bytes} (shows : Shows config s sv) (poised : Poised s) (current : (s.setCurrent path).current = none)
    (waited : ∀ v, (onOpen env path text sv).2.session = some v → v.tasks = [])
    (idle : Idle ((onOpen env path text sv).2.settle env).2) :
    ∃ t, Shows config t ((onOpen env path text sv).2.settle env).2 ∧ Poised t ∧ t.Attends path := by
  have unused := ((Session.setCurrent_none s path).mp current).2
  rw [← Session.current_change poised.1.armed path text] at current
  have plain : (s.change path text).setCurrent path = s.change path text := Session.setCurrent_idle current
  have size : (s.change path text).contexts.size = s.contexts.size := by
    obtain ⟨entries, last, pending, frame⟩ := Session.change_frame poised.1.armed path text
    rw [frame]
  obtain ⟨u, v, made, shows', either, fine⟩ := onOpen_alone env shows current
  rw [plain, size] at made fine
  have runs := Session.awaitReady_runs (environmentFor env config) s.contexts.size env.patience
    ((s.change path text).openContext (Path.base path) path []).2
  rw [← made] at runs
  have worked : u.tasks = [] := by
    have ended := waited v shows'.session
    rcases either with rfl | rfl
    · exact ended
    · obtain ⟨now, turned⟩ := Session.setCurrent_eq u path
      rw [turned] at ended
      exact ended
  obtain ⟨⟨c, found, unfailed⟩, arrives⟩ := Session.arrival_attends poised.1 poised.2 unused runs worked
  have begins := Session.apply_sound (Session.apply_sound poised.1.sound (.change path text)) (.openContext (Path.base path) path [])
  cases fine (by rw [found]; exact unfailed) ((Session.works_sound begins (Session.runs_works runs)).stuck worked)
  have settled := shows'.settle env
  obtain ⟨tasks, armed⟩ := idle _ settled.session
  obtain ⟨rest, attends, served⟩ := arrives _ (Session.settle_runs _ _ _) tasks armed
  exact ⟨_, settled, ⟨rest, attends⟩, served⟩

theorem opened_poised {text : Bytes} (shows : Shows config s sv) (poised : Poised s)
    (waited : ∀ v, (onOpen env path text sv).2.session = some v → v.tasks = [])
    (idle : Idle ((onOpen env path text sv).2.settle env).2) :
    ∃ t, Shows config t ((onOpen env path text sv).2.settle env).2 ∧ Poised t ∧
      (t.Attends path ↔ s.current = none ∨ s.isUsed path = true) := by
  have nobody := Session.setCurrent_none s path
  cases current : (s.setCurrent path).current with
  | some id =>
    obtain ⟨t, settled, poised', attends⟩ := opened_turned shows poised current idle
    refine ⟨t, settled, poised', attends.trans (or_iff_right_of_imp fun free => ?_).symm⟩
    by_contra unused
    rw [current] at nobody
    cases nobody.mpr ⟨free, Bool.not_eq_true _ ▸ unused⟩
  | none =>
    obtain ⟨t, settled, poised', attends⟩ := opened_alone shows poised current waited idle
    exact ⟨t, settled, poised', iff_of_true attends (.inl (nobody.mp current).1)⟩

end Handling

theorem Talks.poised (talks : Talks sv) : ∃ config s, Shows config s sv ∧ Poised s := by
  induction talks with
  | @connected env sv root config _ opens => exact ⟨some config, begin_poised root opens⟩
  | @handled env sv sv' id request before other handled ih =>
    obtain ⟨config, s, shows, poised⟩ := ih
    obtain ⟨waited, rfl, idle⟩ := handled
    cases request with
    | didOpen uri text =>
      obtain ⟨t, shows', poised', -⟩ := opened_poised shows poised (waited uri text rfl) idle
      exact ⟨config, t, shows', poised'⟩
    | _ =>
      obtain ⟨u, shows', takes⟩ := react_takes env shows id other nofun
      have settled := shows'.settle env
      obtain ⟨tasks, armed⟩ := idle _ settled.session
      exact ⟨config, _, settled, settle_poised poised takes (Session.settle_runs _ _ _) tasks armed⟩

theorem idle_iff : Idle sv ↔ (sv.session.all fun s => s.tasks.isEmpty && s.armed.isEmpty) = true := by
  simp [Idle, Option.all_eq_true]

instance : Decidable (Idle sv) := decidable_of_iff _ idle_iff.symm

def desk : Environment where
  source := .ofTable []
  disk := .ofTable [] (utf8 "/")
  home := []
  begun _ := []
  patience := 60

def atDesk : Server := (begin desk .default [] (start (some .default) none)).2

def opened (uri : String) (sv : Server) : Server := ((react desk .null sv (.didOpen (utf8 uri) [])).server.settle desk).2

theorem atDesk_talks : Talks atDesk :=
  .connected rfl (show Idle (begun desk .default (start (some .default) none)) by decide +kernel)

theorem opened_handled {uri : String} (idle : Idle (opened uri sv))
    (worked : ((react desk .null sv (.didOpen (utf8 uri) [])).server.session.all (·.tasks.isEmpty)) = true) :
    Handled desk sv .null (.didOpen (utf8 uri) []) (opened uri sv) where
  waited _ _ _ s there := by
    rw [there] at worked
    exact List.isEmpty_iff.mp worked
  settled := rfl
  idle := idle

theorem first_handled : Handled desk atDesk .null (.didOpen (utf8 "file:///a.dts") []) (opened "file:///a.dts" atDesk) :=
  opened_handled (by decide +kernel) (by decide +kernel)

theorem opened_attended_iff {id : Json} {uri text : Bytes} (talks : Talks sv)
    (handled : Handled env sv id (.didOpen uri text) sv') :
    ∃ s t, sv.session = some s ∧ sv'.session = some t ∧
      (t.Attends (Uri.toPath uri) ↔ s.current = none ∨ s.isUsed (Uri.toPath uri) = true) := by
  obtain ⟨config, s, shows, poised⟩ := talks.poised
  obtain ⟨waited, rfl, idle⟩ := handled
  obtain ⟨t, shows', -, served⟩ := opened_poised shows poised (waited uri text rfl) idle
  exact ⟨s, t, shows.session, shows'.session, served⟩

theorem first_document_attended : ∃ sv sv' t, Talks sv ∧
    Handled desk sv .null (.didOpen (utf8 "file:///a.dts") []) sv' ∧ sv'.session = some t ∧ t.Attends (utf8 "/a.dts") := by
  have path : Uri.toPath (utf8 "file:///a.dts") = utf8 "/a.dts" := by decide +kernel
  have alone : (atDesk.session.map (·.current)) = some none := by decide +kernel
  obtain ⟨s, t, before, after, served⟩ := opened_attended_iff atDesk_talks first_handled
  rw [before] at alone
  exact ⟨_, _, t, atDesk_talks, first_handled, after, path ▸ served.mpr (.inl (Option.some.inj alone))⟩

-- A second document that the first one does not include is used by no context.
theorem second_document_unattended : ¬ ∀ sv sv' uri text, Talks sv → Handled desk sv .null (.didOpen uri text) sv' →
    ∃ t, sv'.session = some t ∧ t.Attends (Uri.toPath uri) := by
  intro attended
  have talks : Talks (opened "file:///a.dts" atDesk) :=
    .handled atDesk_talks (by rintro root ⟨⟩) first_handled
  have handled : Handled desk _ .null (.didOpen (utf8 "file:///b.dts") [])
      (opened "file:///b.dts" (opened "file:///a.dts" atDesk)) := opened_handled (by decide +kernel) (by decide +kernel)
  have unused : ((opened "file:///b.dts" (opened "file:///a.dts" atDesk)).session.map
      (·.isUsed (Uri.toPath (utf8 "file:///b.dts")))) = some false := by decide +kernel
  obtain ⟨t, after, used, -⟩ := attended _ _ _ _ talks handled
  rw [after] at unused
  exact absurd used (Bool.not_eq_true _ ▸ Option.some.inj unused)

end DeviceTree.Server
