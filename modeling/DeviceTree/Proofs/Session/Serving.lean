import DeviceTree.Proofs.Session.Loading

namespace DeviceTree.Session

variable {env : Environment} {fresh : Bytes → Option File} {b s t : Session}

theorem works_sound (sound : Sound s) (works : Works env s t) : Sound t := by
  induction works with
  | refl => exact sound
  | work k step _ ih => exact ih (act_sound sound step)
  | fire k step _ ih => exact ih (act_sound sound step)

theorem works_single {task : Task} (sound : Sound s) (only : s.tasks = [task]) (quiet : s.armed = [])
    (works : Works env s t) (ended : t.tasks = []) :
    Sound (resume env { s with tasks := [] } task) ∧ Works env (resume env { s with tasks := [] } task) t := by
  cases works with
  | refl =>
    rw [only] at ended
    cases ended
  | work k step rest =>
    have sound' := act_sound sound step
    obtain ⟨-, other, present, rfl⟩ := act_work_iff.mp step
    rw [only] at present rest sound'
    cases k with
    | zero =>
      cases Option.some.inj present
      exact ⟨sound', rest⟩
    | succ k => cases present
  | fire k step rest =>
    obtain ⟨-, u, present, -⟩ := act_fire_iff.mp step
    rw [quiet] at present
    cases present

-- What has no choice where there is but one task and no timer.
def Forced (env : Environment) (goes : Session → Prop) : Prop :=
  ∀ {s : Session} {task : Task}, Sound s → s.tasks = [task] → s.armed = [] → goes s →
    Sound (resume env { s with tasks := [] } task) ∧ goes (resume env { s with tasks := [] } task)

theorem works_forced (ended : t.tasks = []) : Forced env (Works env · t) :=
  fun sound only quiet works => works_single sound only quiet works ended

theorem works_timer {timer : Timer} (sound : Sound s) (idle : s.tasks = []) (only : s.armed = [timer])
    (works : Works env s t) (ended : t.armed = []) :
    Sound { s with armed := [], tasks := [.fired timer] } ∧ Works env { s with armed := [], tasks := [.fired timer] } t := by
  cases works with
  | refl =>
    rw [only] at ended
    cases ended
  | work k step rest =>
    obtain ⟨-, other, present, -⟩ := act_work_iff.mp step
    rw [idle] at present
    cases present
  | fire k step rest =>
    have sound' := act_sound sound step
    obtain ⟨-, u, present, rfl⟩ := act_fire_iff.mp step
    rw [only] at present
    rw [idle, only] at rest sound'
    cases k with
    | zero =>
      cases Option.some.inj present
      exact ⟨sound', rest⟩
    | succ k => cases present

theorem works_idle (works : Works env s t) (idle : s.tasks = []) (quiet : s.armed = []) : t = s := by
  cases works with
  | refl => rfl
  | work k step =>
    obtain ⟨-, task, present, -⟩ := act_work_iff.mp step
    rw [idle] at present
    cases present
  | fire k step =>
    obtain ⟨-, u, present, -⟩ := act_fire_iff.mp step
    rw [quiet] at present
    cases present

section Frames

variable {done : Bytes → Prop} {jobs : List Job}

theorem Loads.frame (loads : Loads fresh b done jobs s) (entries : t.entries = s.entries)
    (last : t.lastSerial = s.lastSerial) : Loads fresh b done jobs t where
  filed := by
    rw [entries, last]
    exact loads.filed
  texts p := (openText_frame entries p).trans (loads.texts p)
  known p := (knows_frame entries p).trans (loads.known p)
  files p f := by
    rw [fileAt_frame entries]
    exact loads.files p f
  claimed j member := by
    rw [entry_frame entries]
    exact loads.claimed j member
  single := loads.single
  idle p e := by
    rw [entry_frame entries]
    exact loads.idle p e

theorem Gathering.frame {start : List Bytes} {required : Bool} {goal : Goal} {task : Task}
    (gathering : Gathering env b start required goal s task) (entries : t.entries = s.entries)
    (last : t.lastSerial = s.lastSerial) : Gathering env b start required goal t task := by
  cases gathering with
  | claim loads closing first later => exact .claim (loads.frame entries last) closing first later
  | read loads closing first later => exact .read (loads.frame entries last) closing first later
  | collect loads closing first later => exact .collect (loads.frame entries last) closing first later

theorem Gathered.frame {start : List Bytes} {required : Bool} {goal : Goal} {failure : Option LoadError}
    (gathered : Gathered env b start required goal s failure) (entries : t.entries = s.entries)
    (last : t.lastSerial = s.lastSerial) : Gathered env b start required goal t failure := by
  cases gathered with
  | all readable loads => exact .all readable (loads.frame entries last)
  | failed needed unreadable loads => exact .failed needed unreadable (loads.frame entries last)

end Frames

theorem gathering_resume {start : List Bytes} {required : Bool} {goal : Goal} {task : Task}
    (gathering : Gathering env b start required goal s task) :
    ∃ next entries last pending,
      resume env { s with tasks := [] } task =
        { s with entries := entries, lastSerial := last, pending := pending, tasks := [next] } ∧
      (Gathering env b start required goal
          { s with entries := entries, lastSerial := last, pending := pending, tasks := [next] } next ∨
        ∃ failure, next = .retry failure goal ∧ Gathered env b start required goal
          { s with entries := entries, lastSerial := last, pending := pending, tasks := [next] } failure) := by
  have here : Gathering env b start required goal { s with tasks := [] } task := gathering.frame rfl rfl
  obtain ⟨next, step, outcome⟩ := gathering_advance here
  obtain ⟨entries, last, pending, frame⟩ := advance_files env { s with tasks := [] } gathering.filing
  rw [frame] at outcome
  refine ⟨next, entries, last, pending, ?_, ?_⟩
  · rw [resume, step, frame]
    rfl
  · rcases outcome with going | ⟨failure, same, gathered⟩
    · exact .inl (going.frame rfl rfl)
    · exact .inr ⟨failure, same, gathered.frame rfl rfl⟩

theorem gathering_works {start : List Bytes} {required : Bool} {goal : Goal} {task : Task} (sound : Sound s)
    (gathering : Gathering env b start required goal s task) (only : s.tasks = [task]) (quiet : s.armed = [])
    (works : Works env s t) (ended : t.tasks = []) :
    ∃ u failure entries last pending, Sound u ∧ Works env u t ∧ Gathered env b start required goal u failure ∧
      u = { s with entries := entries, lastSerial := last, pending := pending, tasks := [.retry failure goal] } := by
  induction works generalizing task with
  | refl =>
    rw [only] at ended
    cases ended
  | fire k step =>
    obtain ⟨-, u, present, -⟩ := act_fire_iff.mp step
    rw [quiet] at present
    cases present
  | @work s u t k step rest ih =>
    have sound' := act_sound sound step
    obtain ⟨-, other, present, rfl⟩ := act_work_iff.mp step
    rw [only] at present rest ih sound'
    cases k with
    | succ k => cases present
    | zero =>
      cases Option.some.inj present
      obtain ⟨next, entries, last, pending, equal, outcome⟩ := gathering_resume gathering
      rw [List.eraseIdx_cons_zero, equal] at rest ih sound'
      rcases outcome with going | ⟨failure, rfl, gathered⟩
      · exact ih sound' going rfl quiet ended
      · exact ⟨_, failure, entries, last, pending, sound', rest, gathered, rfl⟩

def Context.remerged (b : Session) (c : Context) : Tree := Tree.merge c.name c.roots b.parsedFiles b.bindings

def Context.Passes (b : Session) (c : Context) : Prop := ∃ found, (c.remerged b).check = .ok found

def Context.renewed (b : Session) (c : Context) : Context :=
  c.published (c.remerged b) ((c.remerged b).check.toOption.getD [])

theorem Context.renewed_eq {c : Context} {found : List Diagnostic} (passed : (c.remerged b).check = .ok found) :
    c.renewed b = c.published (c.remerged b) found := by
  rw [renewed, passed]
  rfl

def Task.isLoop : Task → Bool
  | .merge _ | .publish .. => true
  | _ => false

-- How far the merge of a context has come: what its loop does next, and what it has made of the context.
inductive Stage (b : Session) (id : ContextId) (c : Context) : Option Task → Context → Prop where
  | waits : Stage b id c (some (.merge id)) c.started
  | merged : Stage b id c (some (.publish id (c.remerged b))) c.started.begun
  | shown (passes : c.Passes b) : Stage b id c (some (.merge id)) (c.started.begun.renewed b)
  | ended (passes : c.Passes b) : Stage b id c none (c.renewed b)

inductive Asking : List ContextId → Option Task → Prop where
  | going (todo : List ContextId) : Asking todo (some (.request todo .release))
  | release : Asking [] (some .release)
  | ended : Asking [] none

structure Ready (b : Session) (ids : List ContextId) : Prop where
  single : ids.Nodup
  contexts : ∀ id ∈ ids, ∃ c, b.context? id = some c ∧ c.removed = false ∧ c.dirty = false ∧ c.merging = false
  calm : ∀ e ∈ b.entries, e.live = true → e.isBusy = false

-- Contexts are merged one beside the other; those of `todo` have not been asked for yet.
structure Serves (b : Session) (ids todo : List ContextId) (main : Option Task) (s : Session) : Prop where
  frame : s.entries = b.entries ∧ s.lastSerial = b.lastSerial ∧ s.enrolled = b.enrolled ∧ s.current = b.current ∧
    s.bindings = b.bindings ∧ s.armed = []
  asking : Asking todo main
  main : s.tasks.filter (!·.isLoop) = main.toList
  listed : ∀ id ∈ todo, id ∈ ids
  single : todo.Nodup
  others : ∀ id, id ∉ ids ∨ id ∈ todo → s.context? id = b.context? id ∧ s.tasks.filter (·.loops id) = []
  served : ∀ id ∈ ids, id ∉ todo → ∃ c c' loop, b.context? id = some c ∧ s.context? id = some c' ∧
    Stage b id c loop c' ∧ s.tasks.filter (·.loops id) = loop.toList
  silent : ids = [] → s.events = b.events

theorem perm_toList {α : Type} {xs : List α} {o : Option α} (order : xs.Perm o.toList) : xs = o.toList := by
  cases o with
  | none => exact order.eq_nil
  | some x => exact List.perm_singleton.mp order

-- The task that goes on, if it is one of a kind of which there is at most one.
theorem filter_picked {xs rest : List Task} {task : Task} {only : Option Task} {kind : Task → Bool}
    (order : xs.Perm (task :: rest)) (listed : xs.filter kind = only.toList) :
    (kind task = true → only = some task ∧ rest.filter kind = []) ∧
      (kind task = false → rest.filter kind = only.toList) := by
  have same := order.filter kind
  rw [listed] at same
  constructor
  · intro mine
    rw [List.filter_cons_of_pos mine] at same
    cases only with
    | none => cases same.nil_eq
    | some other =>
      obtain ⟨rfl, empty⟩ := List.cons.inj (List.singleton_perm.mp same)
      exact ⟨rfl, empty.symm⟩
  · intro other
    rw [List.filter_cons_of_neg (by simp [other])] at same
    exact perm_toList same.symm

theorem loops_main {task : Task} (loop : task.isLoop = false) (id : ContextId) : task.loops id = false := by
  cases task with
  | merge | publish => cases loop
  | _ => rfl

theorem Stage.loops {id : ContextId} {c c' : Context} {next : Task} (stage : Stage b id c (some next) c') :
    next.isLoop = true ∧ ∀ j, next.loops j = decide (id = j) := by
  cases stage <;> exact ⟨rfl, fun _ => rfl⟩

namespace Serves

variable {ids todo : List ContextId} {main : Option Task} {task : Task} {rest : List Task}

theorem asked (serves : Serves b ids todo main s) {i : ContextId} (present : task ∈ s.tasks) (mine : task.loops i = true) :
    i ∈ ids ∧ i ∉ todo := by
  by_contra never
  have none := (serves.others i (by tauto)).2
  have there : task ∈ s.tasks.filter (·.loops i) := List.mem_filter.mpr ⟨present, mine⟩
  rw [none] at there
  cases there

theorem turns (serves : Serves b ids todo main s) (order : s.tasks.Perm (task :: rest)) {i : ContextId}
    (loop : task.isLoop = true) (mine : ∀ j, task.loops j = decide (i = j)) {next : Option Task} {c c' : Context}
    {f : Context → Context} {pending : Int} {events : List Event} (now : s.context? i = some c')
    (step : advance env { s with tasks := rest } task =
      (next, { updateContext { s with tasks := rest } i f with pending := pending, events := events }))
    (found : b.context? i = some c) (stage : Stage b i c next (f c')) :
    Serves b ids todo main (resume env { s with tasks := rest } task) := by
  have self : task.loops i = true := by simp [mine]
  obtain ⟨member, gone⟩ := serves.asked (order.mem_iff.mpr List.mem_cons_self) self
  have equal : resume env { s with tasks := rest } task = { updateContext { s with tasks := rest } i f with
      pending := pending, events := events, tasks := next.toList ++ rest } := by
    rw [resume, step]
    rfl
  rw [equal]
  have contexts : ∀ j, context? { updateContext { s with tasks := rest } i f with
      pending := pending, events := events, tasks := next.toList ++ rest } j =
        if i = j then (s.context? j).map f else s.context? j :=
    fun j => context_updateContext { s with tasks := rest } i j f
  -- What goes on is the loop of this context and of no other.
  have same : ∀ j, i ≠ j → ∀ only : Option Task, s.tasks.filter (·.loops j) = only.toList →
      (next.toList ++ rest).filter (·.loops j) = only.toList := by
    intro j differ only listed
    have still := (filter_picked order listed).2 (by simp [mine, differ])
    cases next with
    | none => exact still
    | some n =>
      rw [List.filter_append, still]
      simp [stage.loops.2, differ]
  refine ⟨serves.frame, serves.asking, ?_, serves.listed, serves.single, ?_, ?_, ?_⟩
  · have still := (filter_picked order serves.main).2 (by simp [loop])
    cases next with
    | none => exact still
    | some n => simp [stage.loops.1, still]
  · intro j apart
    have differ : i ≠ j := by
      rintro rfl
      exact apart.elim (absurd member) gone
    obtain ⟨unchanged, idle⟩ := serves.others j apart
    rw [contexts, if_neg differ]
    exact ⟨unchanged, same j differ none idle⟩
  · intro j asked left
    obtain ⟨d, d', only, before, shown, its, listed⟩ := serves.served j asked left
    rw [contexts]
    by_cases own : i = j
    · subst own
      refine ⟨c, f c', next, found, by rw [if_pos rfl, now, Option.map_some], stage, ?_⟩
      rw [List.filter_append, ((filter_picked order listed).1 self).2, List.append_nil]
      cases next with
      | none => rfl
      | some n => simp [stage.loops.2]
    · rw [if_neg own]
      exact ⟨d, d', only, before, shown, its, same j own only listed⟩
  · rintro rfl
    cases member

-- A crash takes nothing away.
theorem reorder (serves : Serves b ids todo main s) (order : s.tasks.Perm (task :: rest)) (crash : Option Panic) :
    Serves b ids todo main { s with tasks := task :: rest, crash := crash } := by
  have same : ∀ {kind : Task → Bool} (only : Option Task), s.tasks.filter kind = only.toList →
      (task :: rest).filter kind = only.toList :=
    fun _ listed => perm_toList (listed ▸ (order.filter _).symm)
  refine ⟨serves.frame, serves.asking, same _ serves.main, serves.listed, serves.single, ?_, ?_, serves.silent⟩
  · intro j apart
    obtain ⟨unchanged, idle⟩ := serves.others j apart
    exact ⟨unchanged, same none idle⟩
  · intro j asked left
    obtain ⟨c, c', loop, before, shown, its, listed⟩ := serves.served j asked left
    exact ⟨c, c', loop, before, shown, its, same _ listed⟩

theorem not_busy (serves : Serves b ids todo main s) (ready : Ready b ids) (tasks : List Task) (c : Context) :
    depsBusy { s with tasks } c = false := by
  by_contra busy
  obtain ⟨e, present, alive, waiting⟩ := busy_of_deps (Bool.not_eq_false _ ▸ busy)
  rw [show ({ s with tasks } : Session).entries = b.entries from serves.frame.1] at present
  rw [ready.calm e present alive] at waiting
  cases waiting

theorem merges (serves : Serves b ids todo main s) (tasks : List Task) (name : Bytes) (roots : List Bytes) :
    Tree.merge name roots ({ s with tasks } : Session).parsedFiles ({ s with tasks } : Session).bindings =
      Tree.merge name roots b.parsedFiles b.bindings := by
  rw [show ({ s with tasks } : Session).bindings = b.bindings from serves.frame.2.2.2.2.1, parsedFiles, parsedFiles,
    show ({ s with tasks } : Session).entries = b.entries from serves.frame.1]

theorem stopped_renewed {c : Context} (clean : c.dirty = false) (idle : c.merging = false) :
    (c.started.begun.renewed b).stopped = c.renewed b := by
  obtain ⟨name, base, overlays, snapshot, deps, dirty, merging, removed, generation, failure⟩ := c
  cases clean
  cases idle
  rfl

theorem merge_step (serves : Serves b ids todo main s) (ready : Ready b ids) {id : ContextId}
    (order : s.tasks.Perm (.merge id :: rest)) :
    Serves b ids todo main (resume env { s with tasks := rest } (.merge id)) := by
  have self : (Task.merge id).loops id = true := by simp [Task.loops]
  obtain ⟨member, gone⟩ := serves.asked (order.mem_iff.mpr List.mem_cons_self) self
  obtain ⟨c, c', loop, found, now, stage, listed⟩ := serves.served id member gone
  obtain ⟨d, same, stays, clean, idle⟩ := ready.contexts id member
  cases found.symm.trans same
  cases ((filter_picked order listed).1 self).1
  have here : context? { s with tasks := rest } id = some c' := now
  rcases onMerge_cases here with ⟨ends, equal⟩ | ⟨dirty, -, -, equal⟩
  · cases stage with
    | waits =>
      rcases ends with clean | removed | busy
      · cases clean
      · rw [show c.started.removed = c.removed from rfl, stays] at removed
        cases removed
      · rw [serves.not_busy ready] at busy
        cases busy
    | shown passes =>
      exact serves.turns order rfl (fun _ => rfl) now equal found (stopped_renewed clean idle ▸ .ended passes)
  · cases stage with
    | shown => cases dirty
    | waits =>
      rw [serves.merges] at equal
      exact serves.turns order rfl (fun _ => rfl) now equal found .merged

theorem publish_step (serves : Serves b ids todo main s) (ready : Ready b ids) {id : ContextId} {tree : Tree}
    (order : s.tasks.Perm (.publish id tree :: rest)) :
    Serves b ids todo main (resume env { s with tasks := rest } (.publish id tree)) := by
  have self : (Task.publish id tree).loops id = true := by simp [Task.loops]
  obtain ⟨member, gone⟩ := serves.asked (order.mem_iff.mpr List.mem_cons_self) self
  obtain ⟨c, c', loop, found, now, stage, listed⟩ := serves.served id member gone
  obtain ⟨d, same, stays, -⟩ := ready.contexts id member
  cases found.symm.trans same
  cases ((filter_picked order listed).1 self).1
  cases stage
  have here : context? { s with tasks := rest } id = some c.started.begun := now
  rcases onPublish_cases here (c.remerged b) with ⟨p, -, equal⟩ | ⟨told, passed, ⟨removed, -⟩ | ⟨-, equal⟩⟩
  · have stuck : resume env { s with tasks := rest } (.publish id (c.remerged b)) =
        { s with tasks := .publish id (c.remerged b) :: rest, crash := some p } := by
      simp only [resume, advance, equal]
      rfl
    rw [stuck]
    exact serves.reorder order _
  · rw [show c.started.begun.removed = c.removed from rfl, stays] at removed
    cases removed
  · have shown : c.started.begun.renewed b = c.started.begun.published (c.remerged b) told := Context.renewed_eq passed
    exact serves.turns order rfl (fun _ => rfl) now equal found (shown ▸ .shown ⟨told, passed⟩)

theorem request_step (serves : Serves b ids todo main s) (ready : Ready b ids) {id : ContextId} {later : List ContextId}
    (remains : todo = id :: later) (order : s.tasks.Perm (.request (id :: later) .release :: rest)) :
    Serves b ids later (some (.request later .release))
      (resume env { s with tasks := rest } (.request (id :: later) .release)) := by
  subst remains
  obtain ⟨alone, single⟩ := List.nodup_cons.mp serves.single
  have member := serves.listed id List.mem_cons_self
  obtain ⟨c, found, stays, clean, idle⟩ := ready.contexts id member
  obtain ⟨now, unstarted⟩ := serves.others id (.inr List.mem_cons_self)
  rw [found] at now
  have here : context? { s with tasks := rest } id = some c := now
  have equal : resume env { s with tasks := rest } (.request (id :: later) .release) =
      { updateContext { s with tasks := rest } id Context.started with
        pending := s.pending + 1, tasks := .request later .release :: (rest ++ [.merge id]) } := by
    rcases requestMerge_cases { s with tasks := rest } id with ⟨-, removed⟩ | ⟨d, same, -, merging, -⟩ | ⟨-, -, -, -, equal⟩
    · rw [removed c here] at stays
      cases stays
    · cases here.symm.trans same
      rw [idle] at merging
      cases merging
    · simp only [resume, advance, equal]
      rfl
  rw [equal]
  have contexts : ∀ j, context? { updateContext { s with tasks := rest } id Context.started with
      pending := s.pending + 1, tasks := .request later .release :: (rest ++ [.merge id]) } j =
        if id = j then (s.context? j).map Context.started else s.context? j :=
    fun j => context_updateContext { s with tasks := rest } id j Context.started
  have same : ∀ j, id ≠ j → ∀ only : Option Task, s.tasks.filter (·.loops j) = only.toList →
      (Task.request later .release :: (rest ++ [.merge id])).filter (·.loops j) = only.toList := by
    intro j differ only listed
    have still := (filter_picked order listed).2 rfl
    have asks : (Task.request later .release).loops j = false := rfl
    have merges : (Task.merge id).loops j = false := decide_eq_false differ
    simp [List.filter_append, still, asks, merges]
  refine ⟨serves.frame, .going later, ?_, fun j there => serves.listed j (.tail _ there), single, ?_, ?_, ?_⟩
  · have still := ((filter_picked order serves.main).1 rfl).2
    have asks : (Task.request later .release).isLoop = false := rfl
    have merges : (Task.merge id).isLoop = true := rfl
    simp [List.filter_append, still, asks, merges]
  · intro j apart
    have differ : id ≠ j := by
      rintro rfl
      exact apart.elim (absurd member) alone
    obtain ⟨unchanged, idle⟩ := serves.others j (apart.imp_right (.tail _))
    rw [contexts, if_neg differ]
    exact ⟨unchanged, same j differ none idle⟩
  · intro j asked left
    rw [contexts]
    by_cases own : id = j
    · subst own
      refine ⟨c, c.started, some (.merge id), found, by rw [if_pos rfl, now, Option.map_some], .waits, ?_⟩
      have idle : s.tasks.filter (·.loops id) = (none : Option Task).toList := unstarted
      have still : rest.filter (·.loops id) = [] := (filter_picked order idle).2 rfl
      have asks : (Task.request later .release).loops id = false := rfl
      have merges : (Task.merge id).loops id = true := decide_eq_true rfl
      simp [List.filter_append, still, asks, merges]
    · have gone : j ∉ id :: later := by simp [Ne.symm own, left]
      obtain ⟨d, d', only, before, shown, its, listed⟩ := serves.served j asked gone
      rw [if_neg own]
      exact ⟨d, d', only, before, shown, its, same j own only listed⟩
  · rintro rfl
    cases member

theorem passes (serves : Serves b ids todo main s) {next : Option Task} (loop : task.isLoop = false)
    (order : s.tasks.Perm (task :: rest)) (asking : Asking todo next) {pending : Int}
    (step : advance env { s with tasks := rest } task = (next, { s with tasks := rest, pending := pending })) :
    Serves b ids todo next (resume env { s with tasks := rest } task) := by
  have equal : resume env { s with tasks := rest } task = { s with tasks := next.toList ++ rest, pending := pending } := by
    rw [resume, step]
  have plain : ∀ n ∈ next, n.isLoop = false := by
    cases asking <;> simp [Task.isLoop]
  have same : ∀ j, ∀ only : Option Task, s.tasks.filter (·.loops j) = only.toList →
      (next.toList ++ rest).filter (·.loops j) = only.toList := by
    intro j only listed
    have still := (filter_picked order listed).2 (loops_main loop j)
    cases next with
    | none => exact still
    | some n =>
      rw [List.filter_append, still]
      simp [loops_main (plain n rfl) j]
  rw [equal]
  refine ⟨serves.frame, asking, ?_, serves.listed, serves.single, ?_, ?_, serves.silent⟩
  · rw [List.filter_append, ((filter_picked order serves.main).1 (by simp [loop])).2, List.append_nil]
    cases next with
    | none => rfl
    | some n => simp [plain n rfl]
  · intro j apart
    obtain ⟨unchanged, idle⟩ := serves.others j apart
    exact ⟨unchanged, same j none idle⟩
  · intro j asked left
    obtain ⟨d, d', only, before, shown, its, listed⟩ := serves.served j asked left
    exact ⟨d, d', only, before, shown, its, same j only listed⟩

theorem step {k : Nat} (serves : Serves b ids todo main s) (ready : Ready b ids) (step : act env s (.work k) = some t) :
    ∃ todo main, Serves b ids todo main t := by
  obtain ⟨-, task, present, rfl⟩ := act_work_iff.mp step
  have order := pick_perm present
  cases loop : task.isLoop with
  | true =>
    cases task with
    | merge id => exact ⟨todo, main, serves.merge_step ready order⟩
    | publish id tree => exact ⟨todo, main, serves.publish_step ready order⟩
    | _ => cases loop
  | false =>
    have only := ((filter_picked order serves.main).1 (by simp [loop])).1
    have asking := serves.asking
    rw [only] at asking
    cases asking with
    | release => exact ⟨[], none, serves.passes loop order .ended rfl⟩
    | going =>
      cases remains : todo with
      | nil =>
        subst remains
        exact ⟨[], some .release, serves.passes loop order .release rfl⟩
      | cons id later =>
        subst remains
        exact ⟨later, _, serves.request_step ready rfl order⟩

theorem works (serves : Serves b ids todo main s) (ready : Ready b ids) (works : Works env s t) :
    ∃ todo main, Serves b ids todo main t := by
  induction works generalizing todo main with
  | refl => exact ⟨todo, main, serves⟩
  | work k step _ ih =>
    obtain ⟨todo, main, serves'⟩ := serves.step ready step
    exact ih serves'
  | fire k step =>
    obtain ⟨-, u, present, -⟩ := act_fire_iff.mp step
    rw [serves.frame.2.2.2.2.2] at present
    cases present

end Serves

structure Renews (b : Session) (ids : List ContextId) (t : Session) : Prop where
  entries : t.entries = b.entries
  enrolled : t.enrolled = b.enrolled
  current : t.current = b.current
  bindings : t.bindings = b.bindings
  contexts : ∀ id, t.context? id = if id ∈ ids then (b.context? id).map (·.renewed b) else b.context? id
  passes : ∀ id ∈ ids, ∀ c, b.context? id = some c → c.Passes b
  silent : ids = [] → t.events = b.events

theorem Serves.ends {ids todo : List ContextId} {main : Option Task} (serves : Serves b ids todo main t) (ended : t.tasks = []) :
    Renews b ids t := by
  obtain ⟨entries, -, enrolled, current, bindings, -⟩ := serves.frame
  have remaining := serves.main
  rw [ended] at remaining
  have asking := serves.asking
  cases main with
  | some task => cases remaining
  | none =>
    cases asking
    have passed : ∀ id ∈ ids, ∃ c, b.context? id = some c ∧ t.context? id = some (c.renewed b) ∧ c.Passes b := by
      intro id member
      obtain ⟨c, c', loop, found, now, stage, listed⟩ := serves.served id member List.not_mem_nil
      rw [ended] at listed
      cases loop with
      | some task => cases listed
      | none =>
        cases stage with
        | ended passes => exact ⟨c, found, now, passes⟩
    refine ⟨entries, enrolled, current, bindings, fun id => ?_, fun id member c found => ?_, serves.silent⟩
    · split
      · rename_i member
        obtain ⟨c, found, now, -⟩ := passed id member
        rw [found, now, Option.map_some]
      · rename_i absent
        exact (serves.others id (.inl absent)).1
    · obtain ⟨o, same, -, passes⟩ := passed id member
      cases found.symm.trans same
      exact passes

theorem request_works {ids : List ContextId} (ready : Ready b ids) (only : b.tasks = [.request ids .release])
    (quiet : b.armed = []) (works : Works env b t) (ended : t.tasks = []) : Renews b ids t := by
  have serves : Serves b ids ids (some (.request ids .release)) b := by
    refine ⟨⟨rfl, rfl, rfl, rfl, rfl, quiet⟩, .going ids, by rw [only]; rfl, fun _ => id, ready.single, ?_, ?_, fun _ => rfl⟩
    · exact fun id _ => ⟨rfl, by rw [only]; rfl⟩
    · exact fun id member gone => absurd member gone
  obtain ⟨todo, main, serves⟩ := serves.works ready works
  exact serves.ends ended

end DeviceTree.Session
