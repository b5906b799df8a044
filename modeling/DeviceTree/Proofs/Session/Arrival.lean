import DeviceTree.Proofs.Session.Retention

namespace DeviceTree.Session

variable {env : Environment} {b s t u m : Session}

inductive Runs (env : Environment) : Session → Session → Prop where
  | refl (s : Session) : Runs env s s
  | step {s t : Session} (running : s.crash = none) (busy : s.tasks ≠ []) (rest : Runs env (stepFirst env s) t) : Runs env s t
  | fire {s t : Session} (running : s.crash = none) (idle : s.tasks = []) (ticking : s.armed ≠ [])
      (rest : Runs env s.fireFirst t) : Runs env s t

theorem runs_works (runs : Runs env s t) : Works env s t := by
  induction runs with
  | refl s => exact .refl s
  | step running busy _ ih => exact .work 0 (act_work_zero env running busy) ih
  | fire running _ ticking _ ih => exact .fire 0 (act_fire_zero env running ticking) ih

theorem runs_first {task : Task} {rest : List Task} (sound : Sound s) (first : s.tasks = task :: rest)
    (step : resume env { s with tasks := rest } task = u) (runs : Runs env s t) (ended : t.tasks = []) :
    Sound u ∧ Runs env u t := by
  have equal : stepFirst env s = u := by
    rw [← step]
    simp only [stepFirst, first]
    rfl
  cases runs with
  | refl =>
    rw [first] at ended
    cases ended
  | step running busy runs' =>
    have sound' := act_sound sound (act_work_zero env running busy)
    rw [equal] at runs' sound'
    exact ⟨sound', runs'⟩
  | fire _ idle =>
    rw [first] at idle
    cases idle

theorem runs_idle (runs : Runs env s t) (idle : s.tasks = []) (quiet : s.armed = []) : t = s :=
  works_idle (runs_works runs) idle quiet

section Driving

def Advances (env : Environment) (s u : Session) : Prop :=
  s.crash = none ∧ (s.tasks ≠ [] ∧ u = stepFirst env s ∨ s.tasks = [] ∧ s.armed ≠ [] ∧ u = s.fireFirst)

theorem drive_runs {next : Session → Option Session} (step : ∀ s u, next s = some u → Advances env s u) (fuel : Nat) (s : Session) :
    Runs env s (drive next fuel s) := by
  induction fuel generalizing s with
  | zero => exact .refl s
  | succ fuel ih =>
    unfold drive
    cases goes : next s with
    | none => exact .refl s
    | some u =>
      obtain ⟨running, ⟨busy, rfl⟩ | ⟨idle, ticking, rfl⟩⟩ := step s u goes
      · exact .step running busy (ih _)
      · exact .fire running idle ticking (ih _)

theorem nextTask_goes (goes : s.nextTask? env = some u) : Advances env s u := by
  unfold nextTask? at goes
  split at goes
  · cases goes
  · rename_i busy
    simp only [Bool.or_eq_true, List.isEmpty_iff, Option.isSome_iff_ne_none, not_or, not_not] at busy
    exact ⟨busy.2, .inl ⟨busy.1, (Option.some.inj goes).symm⟩⟩

theorem next_goes (goes : s.next? env = some u) : Advances env s u := by
  unfold next? at goes
  split at goes
  · cases goes
  · rename_i running
    refine ⟨by simpa using running, ?_⟩
    split at goes
    · rename_i busy
      exact .inl ⟨by simpa using busy, (Option.some.inj goes).symm⟩
    · rename_i idle
      split at goes
      · rename_i ticking
        exact .inr ⟨by simpa using idle, by simpa using ticking, (Option.some.inj goes).symm⟩
      · cases goes

theorem work_runs (env : Environment) (fuel : Nat) (s : Session) : Runs env s (work env fuel s) :=
  drive_runs (fun _ _ => nextTask_goes) fuel s

theorem settle_runs (env : Environment) (fuel : Nat) (s : Session) : Runs env s (settle env fuel s) :=
  drive_runs (fun _ _ => next_goes) fuel s

theorem awaitReady_runs (env : Environment) (id : ContextId) (fuel : Nat) (s : Session) :
    Runs env s (awaitReady env id fuel s) := by
  refine drive_runs (fun s u goes => ?_) fuel s
  unfold nextUntilReady? at goes
  split at goes
  · rename_i task
    cases Option.some.inj goes
    exact nextTask_goes task
  · split at goes
    · cases goes
    · exact next_goes goes

end Driving

def Timed (s t : Session) : Prop :=
  ∀ p e, s.entry? p = some e → ∃ o, t.entry? p = some o ∧ o.timer = e.timer ∧ o.timerId = e.timerId

namespace Timed

theorem of_entries (same : t.entries = s.entries) : Timed s t :=
  fun p e found => ⟨e, (entry_frame same p).trans found, rfl, rfl⟩

theorem trans (first : Timed s t) (second : Timed t u) : Timed s u := by
  intro p e found
  obtain ⟨o, there, timer, number⟩ := first p e found
  obtain ⟨x, last, timer', number'⟩ := second p o there
  exact ⟨x, last, timer'.trans timer, number'.trans number⟩

theorem update (s : Session) (n : Nat) {f : Entry → Entry} (path : ∀ e, (f e).path = e.path) (live : ∀ e, (f e).live = e.live)
    (timer : ∀ e, (f e).timer = e.timer) (number : ∀ e, (f e).timerId = e.timerId) : Timed s (s.updateEntry n f) := by
  intro p e found
  refine ⟨if e.serial = n then f e else e, ?_, ?_, ?_⟩
  · rw [entry_updateEntry s n path live, found, Option.map_some]
  · split
    · exact timer e
    · rfl
  · split
    · exact number e
    · rfl

end Timed

theorem ensureEntry_timed (s : Session) (path : Bytes) : Timed s (s.ensureEntry path).2 := by
  intro p e found
  rw [entry_ensureEntry]
  split
  · rename_i mine
    rcases ensureEntry_entry s path with there | ⟨missing, -⟩
    · rw [mine, there] at found
      exact ⟨e, found, rfl, rfl⟩
    · rw [mine, missing] at found
      cases found
  · exact ⟨e, found, rfl, rfl⟩

theorem claimWave_timed (s : Session) (wave : List Bytes) : Timed s (s.claimWave wave).2 := by
  induction wave generalizing s with
  | nil => exact .of_entries rfl
  | cons path rest ih =>
    unfold claimWave
    dsimp only
    split
    · exact (ensureEntry_timed s path).trans (ih _)
    · have marked : Timed (s.ensureEntry path).2 ((s.ensureEntry path).2.updateEntry (s.ensureEntry path).1.serial
          fun e => { e with state := .parsing }) := .update _ _ (fun _ => rfl) (fun _ => rfl) (fun _ => rfl) fun _ => rfl
      exact ((ensureEntry_timed s path).trans marked).trans (ih _)

theorem collectResult_timed (s : Session) (j : Job) (result : Option File) : Timed s (s.collectResult j result).2 := by
  unfold collectResult settleState
  split
  · split <;> exact .update _ _ (fun _ => rfl) (fun _ => rfl) (fun _ => rfl) fun _ => rfl
  · exact .update _ _ (fun _ => rfl) (fun _ => rfl) (fun _ => rfl) fun _ => rfl

theorem collectResults_timed (s : Session) (results : List (Job × Option File)) :
    Timed s (s.collectResults results).2 := by
  induction results generalizing s with
  | nil => exact .of_entries rfl
  | cons r rest ih => exact (collectResult_timed s r.1 r.2).trans (ih _)

section Gathering

variable {start : List Bytes} {required : Bool} {goal : Goal} {task : Task}

theorem gathering_timed (gathering : Gathering env b start required goal s task) : Timed s (advance env s task).2 := by
  cases gathering with
  | claim =>
    simp only [advance]
    split
    · exact .of_entries rfl
    · exact claimWave_timed s _
  | read => exact .of_entries rfl
  | collect =>
    simp only [advance]
    split <;> exact collectResults_timed s _

theorem gathering_runs (sound : Sound s) (gathering : Gathering env b start required goal s task) (only : s.tasks = [task])
    (runs : Runs env s t) (ended : t.tasks = []) :
    ∃ u failure entries last pending, Sound u ∧ Runs env u t ∧ Gathered env b start required goal u failure ∧ Timed s u ∧
      u = { s with entries := entries, lastSerial := last, pending := pending, tasks := [.retry failure goal] } := by
  induction runs generalizing task with
  | refl =>
    rw [only] at ended
    cases ended
  | fire _ idle =>
    rw [only] at idle
    cases idle
  | @step s t running busy runs ih =>
    obtain ⟨next, entries, last, pending, equal, outcome⟩ := gathering_resume gathering
    obtain ⟨sound', -⟩ := runs_first sound only equal (.step running busy runs) ended
    have timed : Timed s { s with entries := entries, lastSerial := last, pending := pending, tasks := [next] } := by
      have here : Gathering env b start required goal { s with tasks := [] } task := gathering.frame rfl rfl
      rw [← equal]
      exact gathering_timed here
    have first : stepFirst env s = { s with entries := entries, lastSerial := last, pending := pending, tasks := [next] } := by
      rw [← equal]
      simp only [stepFirst, only]
      rfl
    rw [first] at runs ih
    rcases outcome with going | ⟨failure, rfl, gathered⟩
    · obtain ⟨u, failure, entries', last', pending', sound', runs', gathered, timed', rfl⟩ := ih sound' going rfl ended
      exact ⟨_, failure, entries', last', pending', sound', runs', gathered, timed.trans timed', rfl⟩
    · exact ⟨_, failure, entries, last, pending, sound', runs, gathered, timed, rfl⟩

end Gathering

section Shelving

variable {n : ContextId} {c : Context} {next : Task}

theorem ask_runs (sound : Sound s) (found : s.context? n = some c) (stays : c.removed = false) (idle : c.merging = false)
    (only : s.tasks = [.request [n] next]) (runs : Runs env s t) (ended : t.tasks = []) :
    Sound { s.updateContext n Context.started with pending := s.pending + 1, tasks := [next, .merge n] } ∧
      Runs env { s.updateContext n Context.started with pending := s.pending + 1, tasks := [next, .merge n] } t := by
  have asked : resume env { s with tasks := [] } (.request [n] next) =
      { s.updateContext n Context.started with pending := s.pending + 1, tasks := [.request [] next, .merge n] } := by
    have here : context? { s with tasks := [] } n = some c := found
    simp only [resume, advance, requestMerge, here, stays, idle, Bool.false_eq_true, if_false]
    rfl
  obtain ⟨sound', runs'⟩ := runs_first sound only asked runs ended
  exact runs_first sound' rfl rfl runs' ended

theorem context_started (s : Session) (found : s.context? n = some c) (id : ContextId) :
    (s.updateContext n Context.started).context? id = if n = id then some c.started else s.context? id := by
  rw [context_updateContext]
  split
  · rename_i mine
    rw [← mine, found, Option.map_some]
  · rfl

theorem shelve_runs (sound : Sound s) (found : s.context? n = some c) (stays : c.removed = false) (idle : c.merging = false)
    (busy : s.depsBusy c = true) (only : s.tasks = [.request [n] .release]) (runs : Runs env s t) (ended : t.tasks = []) :
    ∃ m contexts pending, Sound m ∧ Runs env m t ∧ m = { s with contexts := contexts, pending := pending, tasks := [] } ∧
      ∀ id, m.context? id = if n = id then some c.asked else s.context? id := by
  have started := context_started s found
  have here := started n
  rw [if_pos rfl] at here
  have put : resume env { s.updateContext n Context.started with pending := s.pending + 1 - 1, tasks := [] } (.merge n) =
      { (s.updateContext n Context.started).updateContext n Context.stopped with
        pending := s.pending + 1 - 1 - 1, tasks := [] } := by
    -- What is busy does not depend on the contexts.
    have still : ({ s.updateContext n Context.started with
        pending := s.pending + 1 - 1, tasks := [] } : Session).depsBusy c.started = true := busy
    rcases onMerge_cases (s := { s.updateContext n Context.started with pending := s.pending + 1 - 1, tasks := [] }) here with
      ⟨-, equal⟩ | ⟨-, -, calm, -⟩
    · rw [resume, advance, equal]
      rfl
    · rw [still] at calm
      cases calm
  obtain ⟨sound₁, runs₁⟩ := ask_runs sound found stays idle only runs ended
  obtain ⟨sound₂, runs₂⟩ := runs_first sound₁ rfl rfl runs₁ ended
  obtain ⟨sound₃, runs₃⟩ := runs_first sound₂ rfl put runs₂ ended
  refine ⟨_, _, _, sound₃, runs₃, rfl, fun id => ?_⟩
  refine (context_updateContext (s.updateContext n Context.started) n id Context.stopped).trans ?_
  rw [started]
  split
  · rw [Option.map_some, Context.stopped, Context.started, Context.asked, ← idle]
  · rfl

end Shelving

section Arriving

variable {name path text : Bytes}

structure Stocks (s : Session) (path : Bytes) (m : Session) : Prop where
  idle : ∀ p e, m.entry? p = some e → e.state ≠ .parsing
  known : ∀ p, s.Knows p ∨ p = path → m.Knows p
  files : ∀ p f, s.fileAt? p = some f → m.fileAt? p = some f
  parsed : ∀ p f, m.fileAt? p = some f → IsParsed p f
  typed : ∀ p, (m.openText? p).isSome = true → (m.fileAt? p).isSome = true

-- A context is open on a file that was no part of any, and its first merge waits for the timer of the file.
structure Shelved (s : Session) (name path : Bytes) (m : Session) : Prop extends Stocks s path m where
  sound : Sound m
  tasks : m.tasks = []
  timer : ∃ e, m.entry? path = some e ∧ m.armed = [⟨path, e.timerId⟩]
  enrolled : m.enrolled = s.enrolled ++ [s.contexts.size]
  contexts : ∀ id, m.context? id =
    if id = s.contexts.size then some (Context.opening name path []).asked else s.context? id

theorem ensureEntry_idle (rest : AtRest s) (path : Bytes) : (s.ensureEntry path).1.state ≠ .parsing := by
  rcases ensureEntry_entry s path with there | ⟨-, -, -, unparsed⟩
  · exact rest.idle path _ there
  · simp [unparsed]

theorem ensureEntry_parsed (s : Session) (path : Bytes) : (s.ensureEntry path).1.parsed = s.fileAt? path := by
  rcases ensureEntry_entry s path with there | ⟨missing, -, unread, -⟩
  · exact (fileAt_entry there).symm
  · rw [unread, fileAt?, missing]
    rfl

structure Begins (s : Session) (name path text : Bytes) (b : Session) : Prop where
  sound : Sound b
  tasks : b.tasks = [.claim [path] true (.openContext s.contexts.size)]
  armed : b.armed = [⟨path, s.lastTimer + 1⟩]
  puts : ∀ p, b.entry? p = if p = path then some ((s.ensureEntry path).1.edited text (s.lastTimer + 1)) else s.entry? p
  enrolled : b.enrolled = s.enrolled
  current : b.current = s.current
  contexts : ∀ id, b.context? id = if id = s.contexts.size then some (.opening name path []) else s.context? id

theorem arrival_begins (rest : AtRest s) (name path text : Bytes) :
    Begins s name path text ((s.change path text).openContext name path []).2 := by
  have sound : Sound ((s.change path text).openContext name path []).2 :=
    apply_sound (apply_sound rest.sound (.change path text)) (.openContext name path [])
  have puts : ∀ p, entry? ((s.change path text).openContext name path []).2 p = _ :=
    change_puts rest.sound.tended.filed rest.armed path text
  have contexts := context_openContext (s := s.change path text) name path []
  obtain ⟨entries, last, pending, equal⟩ := change_frame rest.armed path text
  rw [equal] at sound puts contexts ⊢
  refine ⟨sound, ?_, rfl, puts, rfl, rfl, contexts⟩
  simp only [openContext, addPending, rest.tasks, List.nil_append, Context.roots]

namespace Begins

theorem idle (begins : Begins s name path text b) (rest : AtRest s) : ∀ p e, b.entry? p = some e → e.state ≠ .parsing := by
  intro p e found
  rw [begins.puts] at found
  split at found
  · cases Option.some.inj found
    exact ensureEntry_idle rest path
  · exact rest.idle p e found

theorem texts (begins : Begins s name path text b) : b.openText? = Function.update s.openText? path (some text) :=
  puts_texts begins.puts

theorem files (begins : Begins s name path text b) : b.fileAt? = s.fileAt? := by
  rw [puts_files begins.puts, Function.update_eq_self_iff]
  exact ensureEntry_parsed s path

theorem readable (begins : Begins s name path text b) (env : Environment) :
    freshOf env b.openText? path = some (File.ofText env.source env.includeDirs path text) := by
  rw [freshOf, begins.texts, Function.update_self]

theorem stocks (begins : Begins s name path text b) (rest : AtRest s)
    (loads : Loads (freshOf env b.openText?) b (Comes b.fileAt? (freshOf env b.openText?) [path]) [] u) : Stocks s path u := by
  have kept : ∀ p f, s.fileAt? p = some f → u.fileAt? p = some f :=
    fun p f found => (loads.files p f).mpr (.inl (begins.files ▸ found))
  refine ⟨fun p e found parsing => ?_, fun p known => ?_, kept, fun p f found => ?_, fun p opened => ?_⟩
  · obtain ⟨j, none, -⟩ := loads.idle p e found parsing
    cases none
  · exact (loads.known p).mpr (.inl ((puts_knows begins.puts p).mpr known))
  · rcases (loads.files p f).mp found with before | ⟨-, -, -, read⟩
    · exact rest.parsed p f (begins.files ▸ before)
    · exact freshOf_parsed read
  · cases before : s.fileAt? p with
    | some f =>
      rw [kept p f before]
      rfl
    | none =>
      -- Only the text that has just been opened was not parsed before.
      have mine : p = path := by
        by_contra other
        have old : (s.openText? p).isSome = true := by
          rw [← Function.update_of_ne other (some text) s.openText?, ← begins.texts, ← loads.texts]
          exact opened
        have typed := rest.typed p old
        rw [before] at typed
        cases typed
      have read := (loads.files p _).mpr
        (.inr ⟨begins.files ▸ before, .named (by simp [mine]), nofun, mine ▸ begins.readable env⟩)
      exact Option.isSome_iff_exists.mpr ⟨_, read⟩

end Begins

theorem Stocks.frame (stocks : Stocks s path m) (entries : t.entries = m.entries) : Stocks s path t where
  idle p e found := stocks.idle p e ((entry_frame entries p).symm.trans found)
  known p there := (knows_frame entries p).mpr (stocks.known p there)
  files p f found := (fileAt_frame entries p).trans (stocks.files p f found)
  parsed p f found := stocks.parsed p f ((fileAt_frame entries p).symm.trans found)
  typed p opened := by
    rw [fileAt_frame entries]
    exact stocks.typed p (openText_frame entries p ▸ opened)

theorem enroll_shelves {n : ContextId} {c : Context} {e : Entry} (sound : Sound s)
    (clean : ∀ id c, s.context? id = some c → c.dirty = false ∧ c.merging = false) (found : s.context? n = some c)
    (stays : c.removed = false) (fine : c.failure = none) (root : c.base ∈ c.deps) (there : s.entry? c.base = some e)
    (waits : e.timer.isSome = true) (only : s.tasks = [.retry none (.openContext n)]) (runs : Runs env s t)
    (ended : t.tasks = []) :
    ∃ m contexts pending, Sound m ∧ Runs env m t ∧
      m = { s with contexts := contexts, enrolled := s.enrolled ++ [n], pending := pending, tasks := [] } ∧
      ∀ id, m.context? id = if n = id then some c.asked else s.context? id := by
  obtain ⟨sound₁, runs₁⟩ := runs_first sound only (resume_retry clean none _) runs ended
  obtain ⟨sound₂, runs₂⟩ := runs_first sound₁ rfl rfl runs₁ ended
  obtain ⟨sound₃, runs₃⟩ := runs_first sound₂ rfl rfl runs₂ ended
  have noted : ∀ id, (s.recorded none (.openContext n)).context? id = s.context? id := by
    intro id
    rw [recorded, context_updateContext]
    split
    · rename_i mine
      rw [← mine, found, Option.map_some, ← fine]
    · rfl
  have busy : s.depsBusy c = true := by
    refine List.any_eq_true.mpr ⟨c.base, root, ?_⟩
    simp [isBusy, there, waits]
  obtain ⟨m, contexts, pending, sound', runs', rfl, marked⟩ :=
    shelve_runs sound₃ ((noted n).trans found) stays (clean n c found).2 busy rfl runs₃ ended
  refine ⟨_, contexts, pending, sound', runs', rfl, fun id => (marked id).trans ?_⟩
  split
  · rfl
  · exact noted id

theorem arrival_shelves (rest : AtRest s) (begins : Begins s name path text b) (runs : Runs env b t) (ended : t.tasks = []) :
    ∃ m, Shelved s name path m ∧ m.current = s.current ∧ Runs env m t := by
  have gathering : Gathering env b [path] true (.openContext s.contexts.size) b
      (.claim [path] true (.openContext s.contexts.size)) :=
    .claim (.initial begins.sound.tended.filed (begins.idle rest)) (.initial _ _ _) (fun _ => ⟨rfl, rfl, fun _ => id⟩)
      fun included => by cases included
  obtain ⟨u, failure, entries, last, pending, sound, runs', gathered, timed, rfl⟩ :=
    gathering_runs begins.sound gathering begins.tasks runs ended
  cases gathered with
  | failed _ unreadable =>
    obtain ⟨p, member, -, fails⟩ := unreadable
    rw [List.mem_singleton.mp member, begins.readable] at fails
    cases fails
  | all _ loads =>
    obtain ⟨e, there, timer, number⟩ := timed path _ ((begins.puts path).trans (if_pos rfl))
    have clean := rest.cleans begins.contexts ⟨rfl, rfl⟩
    have found := (begins.contexts s.contexts.size).trans (if_pos rfl)
    obtain ⟨m, contexts, pending', sound', runs'', rfl, marked⟩ := enroll_shelves sound clean found rfl rfl List.mem_cons_self
      there (by rw [timer]; rfl) rfl runs' ended
    refine ⟨_, ⟨?_, sound', rfl, ⟨e, there, ?_⟩, ?_, fun id => ?_⟩, begins.current, runs''⟩
    · exact (begins.stocks rest loads).frame rfl
    · exact number ▸ begins.armed
    · exact congrArg (· ++ [s.contexts.size]) begins.enrolled
    · rw [marked]
      by_cases mine : id = s.contexts.size
      · rw [if_pos mine.symm, if_pos mine]
      · rw [if_neg (Ne.symm mine), if_neg mine]
        exact (begins.contexts id).trans (if_neg mine)

theorem runs_forced (ended : t.tasks = []) : Forced env (Runs env · t) :=
  fun sound only _ runs => runs_first sound only rfl runs ended

-- The merge that was put off is the only one to be asked for after a load.
theorem onRetry_waiting {old : List ContextId} {n : ContextId} {c : Context} (enrolled : s.enrolled = old ++ [n])
    (clean : ∀ id ∈ old, ∀ c, s.context? id = some c → c.dirty = false) (found : s.context? n = some c) (dirty : c.dirty = true)
    (idle : c.merging = false) (failure : Option LoadError) (path : Bytes) :
    s.onRetry failure (.mergeDependents path) = (some (.request [n] (.dependents path)), s) := by
  simp only [onRetry, enrolled, List.filter_append, afterLoad]
  rw [List.filter_eq_nil_iff.mpr, List.nil_append]
  · simp [found, dirty, idle]
  · intro id member
    cases there : s.context? id with
    | none => simp
    | some c => simp [clean id member c there]

section Waking

variable {n : ContextId} {c : Context}

theorem uses_updateContext (s : Session) (i : ContextId) {f : Context → Context} (deps : ∀ c, (f c).deps = c.deps)
    (id : ContextId) (p : Bytes) : (s.updateContext i f).uses id p = s.uses id p := by
  rw [uses, uses, context_updateContext]
  by_cases mine : i = id
  · rw [if_pos mine]
    cases s.context? id with
    | none => rfl
    | some c => exact congrArg (·.elem p) (deps c)
  · rw [if_neg mine]

-- It is asked for, and then once more because the file that it waited for is its own.
theorem twice_runs (sound : Sound s) (found : s.context? n = some c.asked) (stays : c.removed = false) (idle : c.merging = false)
    (named : s.dependentsOf path = [n]) (only : s.tasks = [.request [n] (.dependents path)]) (runs : Runs env s t)
    (ended : t.tasks = []) :
    ∃ u contexts pending, Runs env u t ∧
      u = { s with contexts := contexts, pending := pending, tasks := [.request [] .release, .merge n] } ∧
      ∀ id, u.context? id = if n = id then some c.started else s.context? id := by
  have started := context_started s found
  have here := started n
  rw [if_pos rfl] at here
  have still : (s.updateContext n Context.started).dependentsOf path = [n] := by
    rw [← named]
    exact List.filter_congr fun id _ => uses_updateContext s n (f := Context.started) (fun _ => rfl) id path
  have listed : resume env { s.updateContext n Context.started with pending := s.pending + 1, tasks := [.merge n] }
      (.dependents path) =
        { s.updateContext n Context.started with pending := s.pending + 1, tasks := [.request [n] .release, .merge n] } :=
    congrArg (fun ids => ({ s.updateContext n Context.started with
      pending := s.pending + 1, tasks := [.request ids .release, .merge n] } : Session)) still
  have again : resume env { s.updateContext n Context.started with pending := s.pending + 1, tasks := [.merge n] }
      (.request [n] .release) =
        { (s.updateContext n Context.started).updateContext n Context.asked with
          pending := s.pending + 1, tasks := [.request [] .release, .merge n] } := by
    have going : context? { s.updateContext n Context.started with pending := s.pending + 1, tasks := [.merge n] } n =
      some c.started := here
    have kept : c.started.removed = false := stays
    simp only [resume, advance, requestMerge, going, kept, Bool.false_eq_true, if_false]
    rfl
  obtain ⟨sound₁, runs₁⟩ := ask_runs sound found stays idle only runs ended
  obtain ⟨sound₂, runs₂⟩ := runs_first sound₁ rfl listed runs₁ ended
  obtain ⟨-, runs₃⟩ := runs_first sound₂ rfl again runs₂ ended
  refine ⟨_, _, _, runs₃, rfl, fun id => ?_⟩
  refine (context_updateContext (s.updateContext n Context.started) n id Context.asked).trans ?_
  rw [started]
  split <;> rfl

theorem started_works (works : Works env s t) (ended : t.tasks = []) (found : s.context? n = some c.started)
    (stays : c.removed = false) (fresh : c.dirty = false) (idle : c.merging = false)
    (calm : ∀ e ∈ s.entries, e.live = true → e.isBusy = false) (only : s.tasks = [.request [] .release, .merge n])
    (quiet : s.armed = []) :
    t.armed = [] ∧ Renews (s.updateContext n fun _ => c) [n] t := by
  have clear : ∀ id, (s.updateContext n fun _ => c).context? id = if n = id then some c else s.context? id := by
    intro id
    rw [context_updateContext]
    split
    · rename_i mine
      rw [← mine, found, Option.map_some]
    · rfl
  have ready : Ready (s.updateContext n fun _ => c) [n] := by
    refine ⟨List.nodup_singleton n, fun id member => ⟨c, ?_, stays, fresh, idle⟩, calm⟩
    rw [clear, if_pos (List.mem_singleton.mp member).symm]
  have serves : Serves (s.updateContext n fun _ => c) [n] [] (some (.request [] .release)) s := by
    refine ⟨⟨rfl, rfl, rfl, rfl, rfl, quiet⟩, .going [], by rw [only]; rfl, nofun, List.nodup_nil, fun id other => ?_,
      fun id member _ => ?_, nofun⟩
    · have differ : n ≠ id := by simpa [eq_comm] using other
      refine ⟨((clear id).trans (if_neg differ)).symm, ?_⟩
      rw [only]
      simp [Task.loops, differ]
    · cases List.mem_singleton.mp member
      refine ⟨c, c.started, some (.merge n), (clear n).trans (if_pos rfl), found, .waits, ?_⟩
      rw [only]
      simp [Task.loops]
  obtain ⟨todo, main, served⟩ := serves.works ready works
  exact ⟨served.frame.2.2.2.2.2, served.ends ended⟩

theorem wake_runs {old : List ContextId} {failure : Option LoadError} (sound : Sound s)
    (enrolled : s.enrolled = old ++ [n]) (clean : ∀ id ∈ old, ∀ c, s.context? id = some c → c.dirty = false)
    (apart : ∀ id ∈ old, s.uses id path = false) (found : s.context? n = some c.asked) (mine : path ∈ c.deps)
    (stays : c.removed = false) (fresh : c.dirty = false) (idle : c.merging = false)
    (calm : ∀ e ∈ s.entries, e.live = true → e.isBusy = false) (only : s.tasks = [.retry failure (.mergeDependents path)])
    (quiet : s.armed = []) (runs : Runs env s t) (ended : t.tasks = []) :
    t.entries = s.entries ∧ t.enrolled = s.enrolled ∧ t.current = s.current ∧ t.armed = [] ∧
      ∀ id, t.context? id = if id = n then some (c.renewed t) else s.context? id := by
  have retried : resume env { s with tasks := [] } (.retry failure (.mergeDependents path)) =
      { s with tasks := [.request [n] (.dependents path)] } := by
    rw [resume, advance, onRetry_waiting (s := { s with tasks := [] }) enrolled clean found rfl idle]
    rfl
  have named : s.dependentsOf path = [n] := by
    have its : s.uses n path = true := uses_iff.mpr ⟨_, found, mine⟩
    rw [dependentsOf, enrolled, List.filter_append, List.filter_eq_nil_iff.mpr, List.nil_append]
    · simp [its]
    · exact fun id member => by simp [apart id member]
  obtain ⟨sound₁, runs₁⟩ := runs_first sound only retried runs ended
  obtain ⟨u, contexts, pending, runs₂, rfl, marked⟩ := twice_runs sound₁ found stays idle named rfl runs₁ ended
  obtain ⟨armed, renews⟩ := started_works (runs_works runs₂) ended ((marked n).trans (if_pos rfl)) stays fresh idle calm rfl quiet
  refine ⟨renews.entries, renews.enrolled, renews.current, armed, fun id => ?_⟩
  rw [renews.contexts, context_updateContext]
  by_cases its : id = n
  · subst its
    rw [if_pos (List.mem_singleton_self id), if_pos rfl, if_pos rfl, marked, if_pos rfl, Option.map_some, Option.map_some,
      renewed_frame renews.entries renews.bindings]
  · rw [if_neg (mt List.mem_singleton.mp its), if_neg (Ne.symm its), if_neg its]
    exact (marked id).trans (if_neg (Ne.symm its))

end Waking

structure Arrived (s : Session) (name path : Bytes) (t : Session) : Prop where
  rest : AtRest t
  enrolled : t.enrolled = s.enrolled ++ [s.contexts.size]
  contexts : ∀ id, t.context? id =
    if id = s.contexts.size then some ((Context.opening name path []).renewed t) else s.context? id

theorem arrived_rests {words : Bytes → Option Bytes} {names done : Bytes → Prop} {f : File} (rest : AtRest s)
    (unused : s.isUsed path = false) (stocks : Stocks s path m) (made : IsParsed path f)
    (gains : Gains env words (Function.update m.fileAt? path (some f)) names done t)
    (texts : ∀ p, p ≠ path → words p = m.openText? p)
    (known : ∀ p, m.Knows p → names p) (sound : Sound t) (tasks : t.tasks = []) (armed : t.armed = [])
    (enrolled : t.enrolled = s.enrolled ++ [s.contexts.size])
    (contexts : ∀ id, t.context? id =
      if id = s.contexts.size then some ((Context.opening name path []).renewed t) else s.context? id) : AtRest t := by
  refine gains.rests (s := s) sound tasks armed (rest.cleans contexts ⟨rfl, rfl⟩) (enrolled.symm ▸ rest.enrolls)
    (fun p g found => ?_) (fun p opened => ?_) fun id member c found => ?_
  · rw [Function.update_apply] at found
    split at found
    · rename_i mine
      cases Option.some.inj found
      exact mine ▸ made
    · exact stocks.parsed p g found
  · rw [Function.update_apply]
    split
    · rfl
    · rename_i other
      exact stocks.typed p (texts p other ▸ opened)
  · rw [contexts] at found
    split at found
    · cases Option.some.inj found
      refine .inr ⟨_, rfl, fun p root => .inl (known p (stocks.known p (.inr ?_)))⟩
      simpa [Context.roots, Context.opening] using root
    · rename_i older
      rw [enrolled] at member
      have old := (List.mem_append.mp member).resolve_right (mt List.mem_singleton.mp older)
      have depends := rest.depends id old c found
      refine .inl ⟨depends, fun p there => ⟨known p (stocks.known p (.inl (depends.known p there))), fun g loaded => ?_⟩⟩
      rw [Function.update_of_ne, stocks.files p g loaded]
      rintro rfl
      have uses := unused_apart unused id old
      rw [uses_iff.mpr ⟨c, found, there⟩] at uses
      cases uses

theorem stored_arrives {o : Entry} {f : File} {wave : List Bytes} (rest : AtRest s) (unused : s.isUsed path = false)
    (shelved : Shelved s name path m) (sound : Sound b) (puts : ∀ p, b.entry? p = if p = path then some o else m.entry? p)
    (idle : o.state ≠ .parsing) (stored : o.parsed = some f) (made : IsParsed path f)
    (frame : b.contexts = m.contexts ∧ b.enrolled = m.enrolled)
    (only : b.tasks = [.claim wave false (.mergeDependents path)]) (quiet : b.armed = []) (runs : Runs env b t)
    (ended : t.tasks = []) : Arrived s name path t ∧ t.current = b.current := by
  have contexts : ∀ id, b.context? id = _ := fun id => (congrArg (·[id]?) frame.1).trans (shelved.contexts id)
  have others : ∀ id ∈ s.enrolled, b.context? id = s.context? id :=
    fun id member => (contexts id).trans (if_neg (Nat.ne_of_lt (rest.bounded member)))
  have apart : ∀ id ∈ s.enrolled, b.uses id path = false := by
    intro id member
    rw [uses, others id member]
    exact unused_apart unused id member
  have gathering : Gathering env b wave false (.mergeDependents path) b (.claim wave false (.mergeDependents path)) := by
    refine .claim (.initial sound.tended.filed fun p e found => ?_) (.initial _ _ _) (fun roots => by cases roots)
      fun _ needed => by cases needed
    rw [puts] at found
    split at found
    · cases Option.some.inj found
      exact idle
    · exact shelved.idle p e found
  obtain ⟨u, failure, entries, last, pending, sound', runs', gathered, -, rfl⟩ :=
    gathering_runs sound gathering only runs ended
  have calm : ∀ e ∈ entries, e.live = true → e.isBusy = false := by
    refine calm_of_sound sound' ?_
    rw [duties, quiet]
    rfl
  obtain ⟨entries', listed, current, armed, woken⟩ := wake_runs sound' (frame.2.trans shelved.enrolled)
    (fun id member c found => (rest.clean id c ((others id member).symm.trans found)).1) apart
    ((contexts s.contexts.size).trans (if_pos rfl)) List.mem_cons_self rfl rfl rfl calm rfl quiet runs' ended
  have enrolled : t.enrolled = s.enrolled ++ [s.contexts.size] := listed.trans (frame.2.trans shelved.enrolled)
  have shown : ∀ id, t.context? id =
      if id = s.contexts.size then some ((Context.opening name path []).renewed t) else s.context? id := by
    intro id
    rw [woken]
    split
    · rfl
    · rename_i old
      exact (contexts id).trans (if_neg old)
  cases gathered with
  | failed needed => cases needed
  | all _ loads =>
    have gains := loads.gains.frame entries'
    rw [puts_files puts, stored, puts_texts puts] at gains
    refine ⟨⟨?_, enrolled, shown⟩, current⟩
    exact arrived_rests rest unused shelved.toStocks made gains (fun p other => Function.update_of_ne other _ _)
      (fun p known => (puts_knows puts p).mpr (.inl known)) (works_sound sound' (runs_works runs')) ended armed enrolled shown

theorem shelved_arrives (rest : AtRest s) (unused : s.isUsed path = false) (shelved : Shelved s name path m)
    (runs : Runs env m t) (ended : t.tasks = []) : t = m ∨ Arrived s name path t ∧ t.current = m.current := by
  cases runs with
  | refl => exact .inl rfl
  | step _ busy => exact absurd shelved.tasks busy
  | fire running idle ticking runs =>
    obtain ⟨e, found, armed⟩ := shelved.timer
    have sound := act_sound shelved.sound (act_fire_zero env running ticking)
    have fires : m.fireFirst = { m with armed := [], tasks := [.fired ⟨path, e.timerId⟩] } := by
      rw [fireFirst, armed, idle]
      rfl
    rw [fires] at sound runs
    obtain ⟨u, entries, sound', runs', rfl, stored⟩ := fired_goes (runs_forced ended) sound found rfl rfl rfl runs
    have arrives := stored_arrives rest unused shelved sound' stored (by simp) rfl ⟨_, _, _, rfl⟩ ⟨rfl, rfl⟩ rfl rfl runs'
      ended
    exact .inr arrives

end Arriving

section Attending

variable {path text : Bytes}

def Attends (s : Session) (path : Bytes) : Prop :=
  s.isUsed path = true ∧ ∃ id, s.current = some id ∧ s.uses id path = true

theorem attends_of_current {id : ContextId} (member : id ∈ s.enrolled) (current : s.current = some id)
    (uses : s.uses id path = true) : s.Attends path :=
  ⟨List.any_eq_true.mpr ⟨id, member, uses⟩, id, current, uses⟩

theorem setCurrent_attends (attends : ∀ id, s.current = some id → id ∈ s.enrolled) (used : s.isUsed path = true) :
    ∃ id ∈ s.enrolled, (s.setCurrent path).current = some id ∧ s.uses id path = true := by
  rw [setCurrent_current]
  split
  · rename_i mine
    obtain ⟨id, current, uses⟩ := Option.any_eq_true _ _ |>.mp mine
    exact ⟨id, attends id current, current, uses⟩
  · obtain ⟨id, member, uses⟩ := List.any_eq_true.mp used
    cases first : s.contextFor? path with
    | none => exact absurd uses (List.find?_eq_none.mp first id member)
    | some id =>
      obtain ⟨member, uses⟩ := contextFor_enrolled first
      exact ⟨id, member, rfl, uses⟩

-- No context is the current one afterwards only if none was and none could be.
theorem setCurrent_none (s : Session) (path : Bytes) :
    (s.setCurrent path).current = none ↔ s.current = none ∧ s.isUsed path = false := by
  rw [setCurrent_current, isUsed, List.any_eq_false]
  cases s.current with
  | none => simp [contextFor?, List.find?_eq_none]
  | some id =>
    refine iff_of_false ?_ fun both => by cases both.1
    split
    · exact Option.some_ne_none id
    · cases s.contextFor? path <;> exact Option.some_ne_none _

theorem setCurrent_idle (free : (s.setCurrent path).current = none) : s.setCurrent path = s := by
  have before := ((setCurrent_none s path).mp free).1
  obtain ⟨now, equal⟩ := setCurrent_eq s path
  rw [equal] at free ⊢
  have same : now = s.current := free.trans before.symm
  rw [same]

-- It makes no difference whether the editor turns to a file before or after it is edited.
theorem setCurrent_change (quiet : s.armed = []) (path text : Bytes) :
    (s.change path text).setCurrent path = (s.setCurrent path).change path text := by
  have apart : ∀ now, change { s with current := now } path text = { s.change path text with current := now } := by
    intro now
    obtain ⟨entries, contexts, enrolled, current, bindings, armed, tasks, timer, serial, pending, events, crash⟩ := s
    cases quiet
    unfold change ensureEntry
    have same : entry? ⟨entries, contexts, enrolled, now, bindings, [], tasks, timer, serial, pending, events, crash⟩ path =
      entry? ⟨entries, contexts, enrolled, current, bindings, [], tasks, timer, serial, pending, events, crash⟩ path := rfl
    dsimp only
    rw [same]
    cases entry? ⟨entries, contexts, enrolled, current, bindings, [], tasks, timer, serial, pending, events, crash⟩ path with
    | none => rfl
    | some e =>
      dsimp only
      cases e.timer <;> rfl
  have turned := setCurrent_current (s.change path text) path
  obtain ⟨now, equal⟩ := setCurrent_eq (s.change path text) path
  obtain ⟨here, same⟩ := setCurrent_eq s path
  have reached : here = now := by
    have before := setCurrent_current s path
    rw [same] at before
    obtain ⟨entries, last, pending, frame⟩ := change_frame quiet path text
    rw [equal, frame] at turned
    exact before.trans turned.symm
  rw [equal, same, ← reached]
  exact (apart here).symm

theorem current_change (quiet : s.armed = []) (path text : Bytes) :
    ((s.change path text).setCurrent path).current = (s.setCurrent path).current := by
  have still : (s.setCurrent path).armed = [] := by
    obtain ⟨now, equal⟩ := setCurrent_eq s path
    rw [equal]
    exact quiet
  obtain ⟨entries, last, pending, frame⟩ := change_frame still path text
  rw [setCurrent_change quiet, frame]

theorem change_attends_iff (rest : AtRest s) (attends : ∀ id, s.current = some id → id ∈ s.enrolled)
    (settles : Settles env (s.setCurrent path) (.change path text) t) : t.Attends path ↔ s.isUsed path = true := by
  obtain ⟨outcome, rest'⟩ := settles_outcome (rest.attend path) settles
  obtain ⟨now, equal⟩ := setCurrent_eq s path
  cases outcome with
  | changed gains revises =>
    constructor
    · rintro ⟨used, -⟩
      by_contra unused
      rw [Bool.not_eq_true] at unused
      have nobody : (s.setCurrent path).dependentsOf path = [] := by
        rw [equal]
        refine List.filter_eq_nil_iff.mpr fun id member => ?_
        exact Bool.not_eq_true _ ▸ unused_apart unused id member
      rw [nobody] at revises
      rw [revises.isUsed_nothing, equal] at used
      exact absurd used (Bool.not_eq_true _ ▸ unused)
    · intro used
      obtain ⟨id, member, current, uses⟩ := setCurrent_attends attends used
      obtain ⟨c, found, there⟩ := uses_iff.mp uses
      have member : id ∈ (s.setCurrent path).enrolled := by
        rw [equal]
        exact member
      have found : (s.setCurrent path).context? id = some c := by
        rw [equal]
        exact found
      obtain ⟨shown, led⟩ := revises.leads (rest.attend path) gains member found there
      have loaded : (t.fileAt? path).isSome = true := by
        rw [gains.files, gained_keeps (Function.update_self _ _ _)]
        rfl
      refine attends_of_current (revises.enrolled ▸ member) (revises.current.trans current) (uses_iff.mpr ⟨_, shown, ?_⟩)
      exact (mem_renewed_deps rest'.sound.tended.filed rest'.parsed c path).mpr (.inr ⟨led, loaded⟩)

theorem Shelved.attend {name : Bytes} (shelved : Shelved s name path m) (turn : Bytes) :
    Shelved s name path (m.setCurrent turn) := by
  have sound := shelved.sound.attend turn
  obtain ⟨current, equal⟩ := setCurrent_eq m turn
  rw [equal] at sound ⊢
  exact ⟨shelved.toStocks.frame rfl, sound, shelved.tasks, shelved.timer, shelved.enrolled, shelved.contexts⟩

-- Whoever waits for the new context finds it open, and once all work is done it is the current one.
theorem arrival_attends {name : Bytes} (rest : AtRest s) (attends : ∀ id, s.current = some id → id ∈ s.enrolled)
    (unused : s.isUsed path = false) (runs : Runs env ((s.change path text).openContext name path []).2 u)
    (waited : u.tasks = []) :
    (∃ c, u.context? s.contexts.size = some c ∧ c.failure = none) ∧
      ∀ t, Runs env (u.setCurrent path) t → t.tasks = [] → t.armed = [] →
        AtRest t ∧ (∀ id, t.current = some id → id ∈ t.enrolled) ∧ t.Attends path := by
  obtain ⟨m, shelved, current, runs'⟩ := arrival_shelves rest (arrival_begins rest name path text) runs waited
  have listed : ∀ id, m.current = some id → id ∈ s.enrolled ++ [s.contexts.size] :=
    fun id here => List.mem_append_left _ (attends id (current ▸ here))
  rcases shelved_arrives rest unused shelved runs' waited with rfl | ⟨arrived, same⟩
  · have found := shelved.contexts s.contexts.size
    rw [if_pos rfl] at found
    refine ⟨⟨_, found, rfl⟩, fun t runs ended quiet => ?_⟩
    have used : u.isUsed path = true :=
      isUsed_iff.mpr ⟨_, shelved.enrolled ▸ List.mem_append_right _ (List.mem_singleton_self _), _, found, List.mem_cons_self⟩
    obtain ⟨id, member, turned, uses⟩ := setCurrent_attends (fun id here => shelved.enrolled ▸ listed id here) used
    rcases shelved_arrives rest unused (shelved.attend path) runs ended with rfl | ⟨arrived, kept⟩
    · obtain ⟨e, -, armed⟩ := (shelved.attend path).timer
      rw [armed] at quiet
      cases quiet
    · have member : id ∈ t.enrolled := by
        rw [arrived.enrolled, ← shelved.enrolled]
        exact member
      have shown : t.current = some id := kept.trans turned
      refine ⟨arrived.rest, fun j here => ?_, attends_of_current member shown ?_⟩
      · cases shown.symm.trans here
        exact member
      · obtain ⟨c, there, inside⟩ := uses_iff.mp uses
        rw [shelved.contexts] at there
        rw [uses_iff, arrived.contexts]
        split at there
        · exact ⟨_, if_pos ‹_›, List.mem_cons_self⟩
        · exact ⟨c, (if_neg ‹_›).trans there, inside⟩
  · have found := arrived.contexts s.contexts.size
    rw [if_pos rfl] at found
    refine ⟨⟨_, found, rfl⟩, fun t runs ended quiet => ?_⟩
    have used : u.isUsed path = true :=
      isUsed_iff.mpr ⟨_, arrived.enrolled ▸ List.mem_append_right _ (List.mem_singleton_self _), _, found, List.mem_cons_self⟩
    have attends : ∀ id, u.current = some id → id ∈ u.enrolled :=
      fun id here => arrived.enrolled ▸ listed id (same ▸ here)
    have rest' := arrived.rest.attend path
    cases runs_idle runs rest'.tasks rest'.armed
    obtain ⟨id, member, turned, uses⟩ := setCurrent_attends attends used
    refine ⟨rest', attend_enrolled attends path, ?_⟩
    obtain ⟨now, equal⟩ := setCurrent_eq u path
    rw [equal] at turned ⊢
    exact attends_of_current member turned uses

end Attending

end DeviceTree.Session
