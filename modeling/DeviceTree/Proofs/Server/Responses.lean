import DeviceTree.Server.Handle

namespace DeviceTree.Server

variable {env : Environment} {sv : Server}

def Output.isResponse : Output → Bool
  | .response .. => true
  | _ => false

def Quiet (out : List Output) : Prop := ∀ o ∈ out, o.isResponse = false

@[simp] theorem quiet_nil : Quiet [] := nofun

@[simp] theorem quiet_cons {o : Output} {out : List Output} : Quiet (o :: out) ↔ o.isResponse = false ∧ Quiet out :=
  List.forall_mem_cons

@[simp] theorem quiet_append {out more : List Output} : Quiet (out ++ more) ↔ Quiet out ∧ Quiet more :=
  List.forall_mem_append

theorem quiet_map {α : Type} {make : α → Output} (made : ∀ a, (make a).isResponse = false) (as : List α) :
    Quiet (as.map make) := by
  intro o member
  obtain ⟨a, -, rfl⟩ := List.mem_map.mp member
  exact made a

section Working

theorem present_quiet (sv : Server) (id : Session.ContextId) : Quiet (sv.present id).1 := by
  unfold present
  split
  · exact quiet_nil
  · exact quiet_map (fun _ => rfl) _

theorem onEvent_quiet (sv : Server) (e : Session.Event) : Quiet (sv.onEvent e).1 := by
  unfold onEvent
  split
  · split
    · exact present_quiet sv _
    · exact quiet_nil
  · exact quiet_nil

theorem onEvents_quiet (sv : Server) (events : List Session.Event) : Quiet (sv.onEvents events).1 := by
  induction events generalizing sv with
  | nil => exact quiet_nil
  | cons e rest ih => exact quiet_append.mpr ⟨onEvent_quiet sv e, ih _⟩

theorem observe_quiet (sv : Server) (s : Session) : Quiet (sv.observe s).1 := onEvents_quiet _ _

theorem drive_quiet (next : Session → Option Session) (fuel : Nat) (sv : Server) : Quiet (drive next fuel sv).1 := by
  induction fuel generalizing sv with
  | zero => exact quiet_nil
  | succ fuel ih =>
    unfold drive
    split
    · exact quiet_nil
    · exact quiet_append.mpr ⟨observe_quiet _ _, ih _⟩

end Working

section Starting

theorem andThen_running {first : List Output × Server} (running : first.2.crash = none)
    (second : Server → List Output × Server) :
    andThen first second = (first.1 ++ (second first.2).1, (second first.2).2) := by
  obtain ⟨out, sv⟩ := first
  simp [andThen, show sv.crash = none from running]

theorem andThen_stopped {first : List Output × Server} {p : Panic} (stopped : first.2.crash = some p)
    (second : Server → List Output × Server) : andThen first second = first := by
  obtain ⟨out, sv⟩ := first
  simp [andThen, show sv.crash = some p from stopped]

theorem andThen_quiet {first : List Output × Server} {second : Server → List Output × Server} (before : Quiet first.1)
    (after : ∀ sv, Quiet (second sv).1) : Quiet (andThen first second).1 := by
  cases crash : first.2.crash with
  | none =>
    rw [andThen_running crash]
    exact quiet_append.mpr ⟨before, after _⟩
  | some p =>
    rw [andThen_stopped crash]
    exact before

theorem loadBindings_quiet (files : List Bytes) (sv : Server) : Quiet (loadBindings env files sv).1 := by
  unfold loadBindings
  split
  · exact quiet_nil
  · split
    · exact quiet_nil
    · simp only [quiet_append]
      exact ⟨⟨⟨quiet_map (fun _ => rfl) _, quiet_map (fun _ => rfl) _⟩, observe_quiet _ _⟩, drive_quiet _ _ _⟩

theorem openContext_quiet (name base : Bytes) (overlays : List Bytes) (sv : Server) :
    Quiet (openContext env name base overlays sv).2.1 := by
  unfold openContext
  split
  · exact quiet_nil
  · dsimp only
    split <;> exact quiet_append.mpr ⟨observe_quiet _ _, drive_quiet _ _ _⟩

theorem readBoard_quiet (c : ContextConfig) (id : Session.ContextId) (sv : Server) : Quiet (readBoard env c id sv).1 := by
  unfold readBoard
  split
  · exact quiet_nil
  · split
    · exact quiet_nil
    · exact quiet_cons.mpr ⟨rfl, quiet_nil⟩

theorem openConfigured_quiet (c : ContextConfig) (sv : Server) : Quiet (openConfigured env c sv).1 := by
  have opened : Quiet (openContext env c.name c.board c.overlays sv).2.1 := openContext_quiet c.name c.board c.overlays sv
  unfold openConfigured
  split
  · rename_i made
    rw [made] at opened
    exact quiet_append.mpr ⟨opened, quiet_cons.mpr ⟨rfl, quiet_nil⟩⟩
  · rename_i made
    rw [made] at opened
    exact andThen_quiet opened (readBoard_quiet c _)

theorem openAll_quiet (contexts : List ContextConfig) (sv : Server) : Quiet (openAll env contexts sv).1 := by
  induction contexts generalizing sv with
  | nil => exact quiet_nil
  | cons c rest ih => exact andThen_quiet (openConfigured_quiet c sv) ih

theorem begin_quiet (config : Config) (root : Bytes) (sv : Server) : Quiet (begin env config root sv).1 := by
  unfold begin
  simp only [quiet_append]
  refine ⟨?_, andThen_quiet (andThen_quiet (loadBindings_quiet _ _) (openAll_quiet _)) fun sv => quiet_cons.mpr ⟨rfl, quiet_nil⟩⟩
  split
  · exact quiet_nil
  · exact quiet_cons.mpr ⟨rfl, quiet_nil⟩

theorem connect_quiet {root : Bytes} {step : List Output × Server} (connected : sv.connect env root = .ok step) : Quiet step.1 := by
  unfold connect at connected
  split at connected
  · cases connected
    exact begin_quiet _ _ _
  · cases loaded : Config.loadFull env.disk env.home root with
    | error e =>
      rw [loaded] at connected
      cases connected
    | ok config =>
      rw [loaded] at connected
      cases connected
      exact begin_quiet _ _ _

end Starting

def Request.isNotice : Request → Bool
  | .initialized | .exit | .didOpen .. | .didChange .. | .didClose _ | .ignored => true
  | _ => false

def definitionsFor (p : Place) (sv : Server) : List Location :=
  match (treeFor p.path sv).1 with
  | some (_, t) => t.definitionAt p.path p.position
  | none => []

-- A request whose response has neither a result nor an error.
def Request.Hollow (sv : Server) : Request → Prop
  | .shutdown => True
  | .definition p => definitionsFor p sv = []
  | _ => False

theorem onDefinition_absent (p : Place) (sv : Server) : (onDefinition p sv).1 = .absent ↔ definitionsFor p sv = [] := by
  unfold onDefinition definitionsFor
  split
  · rename_i found
    simp [found]
  · rename_i found
    simp only [found]
    split
    · rename_i none
      simp [none]
    · rename_i some
      simpa using some

section Crashing

theorem treeFor_crash (path : Bytes) (sv : Server) : (treeFor path sv).2.crash = sv.crash := by
  have turned : (sv.setCurrent path).crash = sv.crash := by
    unfold Server.setCurrent
    split <;> rfl
  unfold treeFor
  dsimp only
  split <;> exact turned

theorem onHover_crash (p : Place) (sv : Server) :
    match onHover p sv with
    | (.ok _, after) => after.crash = sv.crash
    | (.error panic, after) => after.crash = some panic := by
  have turned := treeFor_crash p.path sv
  unfold onHover
  rcases equal : treeFor p.path sv with ⟨_ | ⟨id, tree⟩, after⟩ <;> rw [equal] at turned
  · exact turned
  · dsimp only
    cases tree.describeHit (after.boards.lookup id) (tree.query p.path p.position) with
    | error panic => rfl
    | ok content =>
      dsimp only [focusOn]
      split <;> exact turned

theorem onDefinition_crash (p : Place) (sv : Server) : (onDefinition p sv).2.crash = sv.crash := by
  have turned := treeFor_crash p.path sv
  unfold onDefinition
  rcases equal : treeFor p.path sv with ⟨_ | ⟨id, tree⟩, after⟩ <;> rw [equal] at turned
  · exact turned
  · dsimp only
    split <;> exact turned

theorem onReferences_crash (p : Place) (withDeclarations : Bool) (sv : Server) :
    (onReferences p withDeclarations sv).2.crash = sv.crash := by
  have turned := treeFor_crash p.path sv
  unfold onReferences
  rcases equal : treeFor p.path sv with ⟨_ | ⟨id, tree⟩, after⟩ <;> rw [equal] at turned
  · exact turned
  · dsimp only
    split <;> exact turned

end Crashing

theorem react_answers (env : Environment) (id : Json) (sv : Server) {r : Request} (waits : id ≠ .null) (asks : r.isNotice = false) :
    ((react env id sv r).server.crash = none → ∃ out answer, (react env id sv r).outputs = out ++ [.response id answer] ∧
        Quiet out ∧ (answer = .absent ↔ r.Hollow sv)) ∧
      (sv.crash = none → (react env id sv r).server.crash ≠ none → Quiet (react env id sv r).outputs) := by
  have whole : ∀ {answer : Answer}, answer ≠ .absent → (answer = .absent ↔ False) := fun differs => iff_of_false differs nofun
  cases r with
  | connect root =>
    cases connected : sv.connect env root with
    | error e =>
      simp only [react, connected]
      exact ⟨fun _ => ⟨[], _, rfl, quiet_nil, whole nofun⟩, fun running stopped => absurd running stopped⟩
    | ok step =>
      simp only [react, connected, Reaction.quiet]
      cases crash : step.2.crash with
      | none =>
        rw [andThen_running crash]
        exact ⟨fun _ => ⟨step.1, _, rfl, connect_quiet connected, whole nofun⟩, fun _ stopped => absurd crash stopped⟩
      | some p =>
        rw [andThen_stopped crash, crash]
        exact ⟨nofun, fun _ _ => connect_quiet connected⟩
  | shutdown =>
    exact ⟨fun _ => ⟨[], _, rfl, quiet_nil, iff_of_true rfl trivial⟩, fun running stopped => absurd running stopped⟩
  | hover p =>
    have crash := onHover_crash p sv
    simp only [react]
    rcases equal : onHover p sv with ⟨panic | result, after⟩ <;> rw [equal] at crash
    · refine ⟨fun running => ?_, fun _ _ => quiet_nil⟩
      cases crash.symm.trans running
    · exact ⟨fun _ => ⟨[], _, rfl, quiet_nil, whole nofun⟩, fun running stopped => absurd (crash.trans running) stopped⟩
  | definition p =>
    exact ⟨fun _ => ⟨[], _, rfl, quiet_nil, onDefinition_absent p sv⟩,
      fun running stopped => absurd ((onDefinition_crash p sv).trans running) stopped⟩
  | references p withDeclarations =>
    exact ⟨fun _ => ⟨[], _, rfl, quiet_nil, whole nofun⟩,
      fun running stopped => absurd ((onReferences_crash p withDeclarations sv).trans running) stopped⟩
  | documentLink | malformed =>
    exact ⟨fun _ => ⟨[], _, rfl, quiet_nil, whole nofun⟩, fun running stopped => absurd running stopped⟩
  | unknown method =>
    cases id with
    | null => exact absurd rfl waits
    | _ => exact ⟨fun _ => ⟨[], _, rfl, quiet_nil, whole nofun⟩, fun running stopped => absurd running stopped⟩
  | initialized | exit | didOpen | didChange | didClose | ignored => cases asks

def member? (name : String) : Json → Option Json
  | .object members => members.lookup (utf8 name)
  | _ => none

theorem response_id (id : Json) (answer : Answer) (waits : id ≠ .null) :
    member? "id" (envelope (idMember id ++ answerMember answer)) = some id := by
  cases id with
  | null => exact absurd rfl waits
  | _ => rfl

theorem response_holds (id : Json) (answer : Answer) :
    ((member? "result" (envelope (idMember id ++ answerMember answer))).isSome ≠
        (member? "error" (envelope (idMember id ++ answerMember answer))).isSome ↔ answer ≠ .absent) ∧
      (answer = .absent → member? "result" (envelope (idMember id ++ answerMember answer)) = none ∧
        member? "error" (envelope (idMember id ++ answerMember answer)) = none) := by
  cases answer with
  | absent => cases id <;> exact ⟨iff_of_false (fun differ => differ rfl) (fun differ => differ rfl), fun _ => ⟨rfl, rfl⟩⟩
  | result => cases id <;> exact ⟨iff_of_true nofun nofun, nofun⟩
  | error => cases id <;> exact ⟨iff_of_true nofun nofun, nofun⟩

theorem quiet_messages {out : List Output} (quiet : Quiet out) : ∀ v ∈ out.filterMap Output.message?, member? "id" v = none := by
  intro v member
  obtain ⟨o, there, made⟩ := List.mem_filterMap.mp member
  have silent := quiet o there
  cases o with
  | response => cases silent
  | report r =>
    cases Option.some.inj made
    rfl
  | log => cases made

def notices : List String :=
  ["initialized", "exit", "textDocument/didOpen", "textDocument/didChange", "textDocument/didClose"]

-- A message to which the response has neither a result nor an error: it asks to shut down, or for the definition of
-- something that has none.
def Message.Hollow (sv : Server) (m : Message) : Prop :=
  m.method = utf8 "shutdown" ∨ m.method = utf8 "textDocument/definition" ∧
    ∃ p, Request.decode m.params Request.placeField .blank = some p ∧ definitionsFor p sv = []

section Reading

variable {m : Message}

theorem decoded {α : Type} {P : Request → Prop} {params : Option α} {make : α → Request} {refused : Request}
    (read : ∀ a, P (make a)) (unread : P refused) : P ((params.map make).getD refused) := by
  cases params with
  | none => exact unread
  | some a => exact read a

theorem ofConnect_cases {P : Request → Prop} (params : Option Json) (read : ∀ root, P (.connect root)) (unread : P .malformed) :
    P (Request.ofConnect params) := by
  unfold Request.ofConnect
  split
  · exact read _
  · exact unread

theorem ofMessage_asks (asks : ∀ name ∈ notices, m.method ≠ utf8 name) : (Request.ofMessage m).isNotice = false := by
  have other : ∀ name ∈ notices, (m.method == utf8 name) = false := fun name member =>
    beq_eq_false_iff_ne.mpr (asks name member)
  simp only [notices, List.forall_mem_cons] at other
  obtain ⟨initialized, exit, opens, changes, closes, -⟩ := other
  simp only [Request.ofMessage, initialized, exit, opens, changes, closes, Bool.false_eq_true, if_false]
  split
  · exact ofConnect_cases (P := (·.isNotice = false)) m.params (fun _ => rfl) rfl
  · repeat' split
    all_goals first | rfl | exact decoded (P := (·.isNotice = false)) (fun _ => rfl) rfl

theorem ofMessage_hollow (m : Message) (sv : Server) : (Request.ofMessage m).Hollow sv ↔ m.Hollow sv := by
  by_cases down : m.method = utf8 "shutdown"
  · have made : Request.ofMessage m = .shutdown := by
      rw [Request.ofMessage, down]
      rfl
    rw [made]
    exact iff_of_true trivial (.inl down)
  by_cases asked : m.method = utf8 "textDocument/definition"
  · have made : Request.ofMessage m = ((Request.decode m.params Request.placeField .blank).map .definition).getD .malformed := by
      rw [Request.ofMessage, asked]
      rfl
    rw [made, Message.Hollow]
    cases Request.decode m.params Request.placeField .blank with
    | none => simp [down, Request.Hollow]
    | some p =>
      refine ⟨fun none => .inr ⟨asked, p, rfl, none⟩, ?_⟩
      rintro (shut | ⟨-, q, same, none⟩)
      · exact absurd shut down
      · cases Option.some.inj same
        exact none
  refine iff_of_false ?_ (not_or.mpr ⟨down, fun both => asked both.1⟩)
  simp only [Request.ofMessage, beq_eq_false_iff_ne.mpr down, beq_eq_false_iff_ne.mpr asked, Bool.false_eq_true, if_false]
  split
  · exact ofConnect_cases (P := (¬ ·.Hollow sv)) m.params (fun _ => id) id
  · repeat' split
    all_goals first | exact id | exact decoded (P := (¬ ·.Hollow sv)) (fun _ => id) id

end Reading

-- A request at which the program does not stop is answered by one message, before and after which others may be written
-- that carry no id; and the message has exactly one of a result and an error if and only if the request is not a hollow one.
theorem request_answered_once (env : Environment) (sv : Server) (m : Message) (waits : m.id ≠ .null)
    (asks : ∀ name ∈ notices, m.method ≠ utf8 name) :
    ((react env m.id sv (.ofMessage m)).server.crash = none → ∃ before message after,
      ((react env m.id sv (.ofMessage m)).outputs ++ ((react env m.id sv (.ofMessage m)).server.settle env).1).filterMap
        Output.message? = before ++ message :: after ∧
      member? "id" message = some m.id ∧ (∀ other ∈ before ++ after, member? "id" other = none) ∧
      ((member? "result" message).isSome ≠ (member? "error" message).isSome ↔ ¬ m.Hollow sv) ∧
      (m.Hollow sv → member? "result" message = none ∧ member? "error" message = none)) ∧
    (sv.crash = none → (react env m.id sv (.ofMessage m)).server.crash ≠ none →
      ∀ message ∈ (react env m.id sv (.ofMessage m)).outputs.filterMap Output.message?, member? "id" message = none) := by
  obtain ⟨answers, stops⟩ := react_answers env m.id sv waits (ofMessage_asks asks)
  refine ⟨fun running => ?_, fun running stopped => quiet_messages (stops running stopped)⟩
  obtain ⟨out, answer, outputs, quiet, hollow⟩ := answers running
  obtain ⟨one, neither⟩ := response_holds m.id answer
  rw [ofMessage_hollow] at hollow
  have later : Quiet ((react env m.id sv (.ofMessage m)).server.settle env).1 := drive_quiet _ _ _
  refine ⟨out.filterMap Output.message?, envelope (idMember m.id ++ answerMember answer),
    ((react env m.id sv (.ofMessage m)).server.settle env).1.filterMap Output.message?, ?_, response_id m.id answer waits, ?_,
    one.trans (not_congr hollow), fun shut => neither (hollow.mpr shut)⟩
  · rw [outputs, List.filterMap_append, List.filterMap_append, List.append_assoc]
    rfl
  · exact List.forall_mem_append.mpr ⟨quiet_messages quiet, quiet_messages later⟩

def bare : Environment where
  source := .ofTable []
  disk := .ofTable [] (utf8 "/")
  home := []
  begun _ := []
  patience := 0

def asking (method : String) : Message := ⟨utf8 method, none, .nat 1⟩

theorem hover_answered_once : ∃ before message after,
    ((react bare (.nat 1) (start none none) (.ofMessage (asking "textDocument/hover"))).outputs ++
      ((react bare (.nat 1) (start none none) (.ofMessage (asking "textDocument/hover"))).server.settle bare).1).filterMap
        Output.message? = before ++ message :: after ∧
    member? "id" message = some (.nat 1) ∧ (member? "result" message).isSome ≠ (member? "error" message).isSome := by
  have whole : ¬ (asking "textDocument/hover").Hollow (start none none) := by
    rintro (shut | ⟨definition, -⟩)
    · exact absurd shut (by decide)
    · exact absurd definition (by decide)
  obtain ⟨before, message, after, outputs, id, -, one, -⟩ :=
    (request_answered_once bare (start none none) (asking "textDocument/hover") nofun (by decide)).1 rfl
  exact ⟨before, message, after, outputs, id, one.mpr whole⟩

-- The response to a shutdown has no result.
theorem shutdown_answered_hollow : ¬ ∀ (env : Environment) (sv : Server) (m : Message), m.id ≠ .null →
    (∀ name ∈ notices, m.method ≠ utf8 name) → (react env m.id sv (.ofMessage m)).server.crash = none →
    ∃ before message after,
      ((react env m.id sv (.ofMessage m)).outputs ++ ((react env m.id sv (.ofMessage m)).server.settle env).1).filterMap
        Output.message? = before ++ message :: after ∧
      member? "id" message = some m.id ∧ (∀ other ∈ before ++ after, member? "id" other = none) ∧
      (member? "result" message).isSome ≠ (member? "error" message).isSome := by
  intro answers
  obtain ⟨before, message, after, outputs, -, -, one⟩ := answers bare (start none none) (asking "shutdown") nofun (by decide) rfl
  have written : message ∈ [envelope [("id", .nat 1)]] := by
    change [envelope [("id", .nat 1)]] = _ at outputs
    rw [outputs]
    exact List.mem_append_right _ List.mem_cons_self
  rw [List.mem_singleton.mp written] at one
  exact one rfl

end DeviceTree.Server
