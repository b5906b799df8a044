import DeviceTree.Session.Run
import Mathlib.Data.List.Nodup
import Mathlib.Data.List.Perm.Basic

namespace DeviceTree.Session

inductive Call where
  | change (path text : Bytes)
  | close (path : Bytes)
  | openContext (name base : Bytes) (overlays : List Bytes)
  | remove (context : ContextId)
  | loadBindings (paths : List Bytes)

def Call.apply (s : Session) : Call → Session
  | .change path text => s.change path text
  | .close path => s.close path
  | .openContext name base overlays => (s.openContext name base overlays).2
  | .remove id => s.remove id
  | .loadBindings paths => s.loadBindings paths

-- A task that was taken out of the queue goes on, and what it does next is put back.
def resume (env : Environment) (s : Session) (task : Task) : Session :=
  { (advance env s task).2 with tasks := (advance env s task).1.toList ++ (advance env s task).2.tasks }

inductive Action where
  | call (c : Call)
  | work (k : Nat)
  | fire (k : Nat)

-- Nothing happens any more once the program has stopped.
def act (env : Environment) (s : Session) (a : Action) : Option Session :=
  if s.crash.isSome then none
  else
    match a with
    | .call c => some (c.apply s)
    | .work k => (s.tasks[k]?).map (resume env { s with tasks := s.tasks.eraseIdx k })
    | .fire k => (s.armed[k]?).map fun t =>
      { s with armed := s.armed.eraseIdx k, tasks := s.tasks ++ [.fired t] }

section Act

variable {env : Environment} {s t : Session}

theorem act_call_iff {c : Call} : act env s (.call c) = some t ↔ s.crash = none ∧ c.apply s = t := by
  cases h : s.crash <;> simp [act, h]

theorem act_work_iff {k : Nat} : act env s (.work k) = some t ↔ s.crash = none ∧ ∃ task, s.tasks[k]? = some task ∧
    resume env { s with tasks := s.tasks.eraseIdx k } task = t := by
  cases h : s.crash <;> simp [act, h]

theorem act_fire_iff {k : Nat} : act env s (.fire k) = some t ↔ s.crash = none ∧ ∃ u, s.armed[k]? = some u ∧
    { s with armed := s.armed.eraseIdx k, tasks := s.tasks ++ [.fired u] } = t := by
  cases h : s.crash <;> simp [act, h]

theorem running_of_act {a : Action} (step : act env s a = some t) : s.crash = none := by
  cases a with
  | call => exact (act_call_iff.mp step).1
  | work => exact (act_work_iff.mp step).1
  | fire => exact (act_fire_iff.mp step).1

end Act

inductive Works (env : Environment) : Session → Session → Prop where
  | refl (s : Session) : Works env s s
  | work {s t u : Session} (k : Nat) (step : act env s (.work k) = some t) (rest : Works env t u) : Works env s u
  | fire {s t u : Session} (k : Nat) (step : act env s (.fire k) = some t) (rest : Works env t u) : Works env s u

theorem act_work_zero (env : Environment) {s : Session} (running : s.crash = none) (busy : s.tasks ≠ []) :
    act env s (.work 0) = some (stepFirst env s) := by
  cases waiting : s.tasks with
  | nil => exact absurd waiting busy
  | cons task rest => exact act_work_iff.mpr ⟨running, task, by rw [waiting]; rfl, by simp [stepFirst, resume, waiting]⟩

theorem act_fire_zero (env : Environment) {s : Session} (running : s.crash = none) (armed : s.armed ≠ []) :
    act env s (.fire 0) = some s.fireFirst := by
  cases waiting : s.armed with
  | nil => exact absurd waiting armed
  | cons t rest => exact act_fire_iff.mpr ⟨running, t, by rw [waiting]; rfl, by simp [fireFirst, waiting]⟩

theorem settle_works (env : Environment) (fuel : Nat) (s : Session) : Works env s (settle env fuel s) := by
  unfold settle
  induction fuel generalizing s with
  | zero => exact .refl s
  | succ fuel ih =>
    unfold drive
    split
    · rename_i t step
      unfold next? at step
      split at step
      · cases step
      · rename_i running
        replace running : s.crash = none := by simpa using running
        split at step
        · rename_i busy
          cases Option.some.inj step
          exact .work 0 (act_work_zero env running (by simpa using busy)) (ih _)
        · split at step
          · rename_i armed
            cases Option.some.inj step
            exact .fire 0 (act_fire_zero env running (by simpa using armed)) (ih _)
          · cases step
    · exact .refl s

theorem pick_perm {α : Type} {xs : List α} {k : Nat} {x : α} (present : xs[k]? = some x) :
    xs.Perm (x :: xs.eraseIdx k) := by
  obtain ⟨bound, rfl⟩ := List.getElem?_eq_some_iff.mp present
  exact (List.getElem_cons_eraseIdx_perm bound).symm

inductive Duty where
  | timer (t : Timer)
  | draft (serial generation : Nat)
  | job (serial : Nat)
  | refresh (path : Bytes)

def Task.duties : Task → List Duty
  | .fired t => [.timer t]
  | .parse _ serial generation _ => [.draft serial generation]
  | .store serial generation _ => [.draft serial generation]
  | .read _ jobs _ _ => jobs.map fun j => .job j.serial
  | .collect results _ _ => results.map fun r => .job r.1.serial
  | .reload path => [.refresh path]
  | _ => []

def duties (s : Session) : List Duty := s.armed.map .timer ++ s.tasks.flatMap Task.duties

def dutiesOf : Option Task → List Duty
  | some next => next.duties
  | none => []

def clocks (d : List Duty) : List Nat :=
  d.filterMap fun
    | .timer t => some t.id
    | _ => none

theorem clocks_append (d d' : List Duty) : clocks (d ++ d') = clocks d ++ clocks d' :=
  List.filterMap_append

theorem mem_clocks {d : List Duty} {id : Nat} : id ∈ clocks d ↔ ∃ t : Timer, .timer t ∈ d ∧ t.id = id := by
  unfold clocks
  rw [List.mem_filterMap]
  constructor
  · rintro ⟨x, present, equal⟩
    cases x with
    | timer t => exact ⟨t, present, Option.some.inj equal⟩
    | _ => cases equal
  · rintro ⟨t, present, equal⟩
    exact ⟨.timer t, present, congrArg some equal⟩

-- If all numbers differ, a number tells which timer it is.
theorem clocks_inj {d : List Duty} (nodup : (clocks d).Nodup) {t t' : Timer} (here : .timer t ∈ d)
    (there : .timer t' ∈ d) (equal : t.id = t'.id) : t = t' := by
  induction d with
  | nil => cases here
  | cons x d ih =>
    have rest : (clocks d).Nodup := by
      cases x with
      | timer u => exact (List.nodup_cons.mp nodup).2
      | _ => exact nodup
    have alone : ∀ u u' : Timer, x = .timer u → .timer u' ∈ d → u.id ≠ u'.id := by
      rintro u u' rfl later same
      exact (List.nodup_cons.mp nodup).1 (mem_clocks.mpr ⟨u', later, same.symm⟩)
    rcases List.mem_cons.mp here with first | later <;> rcases List.mem_cons.mp there with first' | later'
    · exact Duty.timer.inj (first.trans first'.symm)
    · exact absurd equal (alone t t' first.symm later')
    · exact absurd equal.symm (alone t' t first'.symm later)
    · exact ih rest later later'

-- The serial numbers tell all entries apart, and no two live entries share a path.
structure Filed (entries : List Entry) (last : Nat) : Prop where
  serials : (entries.map (·.serial)).Nodup
  known : ∀ e ∈ entries, e.serial ≤ last
  single : ∀ e ∈ entries, ∀ e' ∈ entries, e.live = true → e'.live = true → e.path = e'.path → e = e'

namespace Filed

variable {entries : List Entry} {last : Nat}

theorem same_serial (filed : Filed entries last) {e e' : Entry} (here : e ∈ entries) (there : e' ∈ entries)
    (equal : e.serial = e'.serial) : e = e' :=
  List.inj_on_of_nodup_map filed.serials here there equal

theorem update (filed : Filed entries last) (n : Nat) {f : Entry → Entry} (serial : ∀ e, (f e).serial = e.serial)
    (path : ∀ e, (f e).path = e.path) (live : ∀ e, (f e).live = true → e.live = true) :
    Filed (entries.map fun e => if e.serial = n then f e else e) last := by
  have keeps : ∀ e : Entry, (if e.serial = n then f e else e).serial = e.serial := by
    intro e
    split
    · exact serial e
    · rfl
  refine ⟨?_, ?_, ?_⟩
  · rw [List.map_map, show (·.serial) ∘ (fun e => if e.serial = n then f e else e) = Entry.serial from funext keeps]
    exact filed.serials
  · intro e present
    obtain ⟨old, member, rfl⟩ := List.mem_map.mp present
    rw [keeps]
    exact filed.known old member
  · intro e present e' present' alive alive' equal
    obtain ⟨old, member, rfl⟩ := List.mem_map.mp present
    obtain ⟨old', member', rfl⟩ := List.mem_map.mp present'
    have wasLive : ∀ o : Entry, (if o.serial = n then f o else o).live = true → o.live = true := by
      intro o
      split
      · exact live o
      · exact id
    have wasPath : ∀ o : Entry, (if o.serial = n then f o else o).path = o.path := by
      intro o
      split
      · exact path o
      · rfl
    rw [wasPath, wasPath] at equal
    rw [filed.single old member old' member' (wasLive old alive) (wasLive old' alive') equal]

theorem add (filed : Filed entries last) {e : Entry} (fresh : e.serial = last + 1)
    (missing : ∀ e' ∈ entries, e'.live = true → e'.path ≠ e.path) : Filed (entries ++ [e]) (last + 1) := by
  refine ⟨?_, ?_, ?_⟩
  · rw [List.map_append, List.map_singleton, List.nodup_append]
    refine ⟨filed.serials, List.nodup_singleton _, ?_⟩
    intro n old m new equal
    obtain ⟨e', member, rfl⟩ := List.mem_map.mp old
    have bound := filed.known e' member
    rw [List.mem_singleton.mp new, fresh] at equal
    omega
  · intro e' present
    rcases List.mem_append.mp present with old | new
    · exact Nat.le_succ_of_le (filed.known e' old)
    · cases List.mem_singleton.mp new
      exact Nat.le_of_eq fresh
  · intro a left b right aliveA aliveB equal
    rcases List.mem_append.mp left with oldA | newA <;> rcases List.mem_append.mp right with oldB | newB
    · exact filed.single a oldA b oldB aliveA aliveB equal
    · cases List.mem_singleton.mp newB
      exact absurd equal (missing a oldA aliveA)
    · cases List.mem_singleton.mp newA
      exact absurd equal.symm (missing b oldB aliveB)
    · rw [List.mem_singleton.mp newA, List.mem_singleton.mp newB]

end Filed

theorem entry_mem {s : Session} {path : Bytes} {e : Entry} (found : s.entry? path = some e) :
    e ∈ s.entries ∧ e.live = true ∧ e.path = path := by
  have member := List.mem_of_find?_eq_some found
  have holds := List.find?_some found
  simp only [Bool.and_eq_true, decide_eq_true_eq] at holds
  exact ⟨member, holds⟩

theorem entry_of_mem {s : Session} (filed : Filed s.entries s.lastSerial) {e : Entry} (present : e ∈ s.entries)
    (alive : e.live = true) : s.entry? e.path = some e := by
  cases found : s.entry? e.path with
  | none =>
    have missing := List.find?_eq_none.mp found e present
    simp [alive] at missing
  | some other =>
    obtain ⟨member, live, path⟩ := entry_mem found
    rw [filed.single other member e present live alive path]

theorem entry_none {s : Session} {path : Bytes} (missing : s.entry? path = none) {e : Entry}
    (present : e ∈ s.entries) (alive : e.live = true) : e.path ≠ path := by
  intro equal
  have absent := List.find?_eq_none.mp missing e present
  simp [alive, equal] at absent

theorem serial_mem {s : Session} {n : Nat} {e : Entry} (found : s.entryBySerial? n = some e) :
    e ∈ s.entries ∧ e.serial = n :=
  ⟨List.mem_of_find?_eq_some found, by simpa using List.find?_some found⟩

theorem serial_of_mem {s : Session} (filed : Filed s.entries s.lastSerial) {e : Entry} (present : e ∈ s.entries) :
    s.entryBySerial? e.serial = some e := by
  cases found : s.entryBySerial? e.serial with
  | none =>
    have missing := List.find?_eq_none.mp found e present
    simp at missing
  | some other =>
    obtain ⟨member, equal⟩ := serial_mem found
    rw [filed.same_serial member present equal]

theorem mem_updateEntry {s : Session} {n : Nat} {f : Entry → Entry} {e : Entry} :
    e ∈ (s.updateEntry n f).entries ↔ (∃ o ∈ s.entries, o.serial = n ∧ e = f o) ∨ e ∈ s.entries ∧ e.serial ≠ n := by
  simp only [updateEntry, List.mem_map]
  constructor
  · rintro ⟨o, member, rfl⟩
    split
    · rename_i equal
      exact .inl ⟨o, member, equal, rfl⟩
    · rename_i other
      exact .inr ⟨member, other⟩
  · rintro (⟨o, member, equal, rfl⟩ | ⟨member, other⟩)
    · exact ⟨o, member, by simp [equal]⟩
    · exact ⟨e, member, by simp [other]⟩

def FilesOnly (s t : Session) : Prop :=
  ∃ entries last pending, t = { s with entries := entries, lastSerial := last, pending := pending }

namespace FilesOnly

variable {s t u : Session}

theorem refl (s : Session) : FilesOnly s s := ⟨_, _, _, rfl⟩

theorem trans (first : FilesOnly s t) (second : FilesOnly t u) : FilesOnly s u := by
  obtain ⟨entries, last, pending, rfl⟩ := first
  obtain ⟨entries', last', pending', rfl⟩ := second
  exact ⟨entries', last', pending', rfl⟩

end FilesOnly

theorem updateEntry_files (s : Session) (n : Nat) (f : Entry → Entry) : FilesOnly s (s.updateEntry n f) :=
  ⟨_, _, _, rfl⟩

theorem ensureEntry_files (s : Session) (path : Bytes) : FilesOnly s (s.ensureEntry path).2 := by
  unfold ensureEntry
  split
  · exact .refl s
  · exact ⟨_, _, _, rfl⟩

theorem claimWave_files (s : Session) (wave : List Bytes) : FilesOnly s (s.claimWave wave).2 := by
  induction wave generalizing s with
  | nil => exact .refl s
  | cons path rest ih =>
    unfold claimWave
    dsimp only
    split
    · exact (ensureEntry_files s path).trans (ih _)
    · exact ((ensureEntry_files s path).trans (updateEntry_files _ _ _)).trans (ih _)

theorem collectResult_files (s : Session) (j : Job) (result : Option File) :
    FilesOnly s (s.collectResult j result).2 := by
  unfold collectResult
  split
  · split <;> exact ⟨_, _, _, rfl⟩
  · exact ⟨_, _, _, rfl⟩

theorem collectResults_files (s : Session) (results : List (Job × Option File)) :
    FilesOnly s (s.collectResults results).2 := by
  induction results generalizing s with
  | nil => exact .refl s
  | cons r rest ih => exact (collectResult_files s r.1 r.2).trans (ih _)

theorem ensureEntry_pending (s : Session) (path : Bytes) : (s.ensureEntry path).2.pending = s.pending := by
  unfold ensureEntry
  split <;> rfl

theorem claimWave_pending (s : Session) (wave : List Bytes) : (s.claimWave wave).2.pending = s.pending := by
  induction wave generalizing s with
  | nil => rfl
  | cons path rest ih =>
    unfold claimWave
    dsimp only
    split
    · rw [ih, ensureEntry_pending]
    · rw [ih]
      exact ensureEntry_pending s path

theorem collectResults_pending (s : Session) (results : List (Job × Option File)) :
    (s.collectResults results).2.pending = s.pending := by
  induction results generalizing s with
  | nil => rfl
  | cons r rest ih =>
    simp only [collectResults]
    rw [ih]
    unfold collectResult
    split
    · split <;> rfl
    · rfl

def Task.isFiling : Task → Bool
  | .fired _ | .parse .. | .store .. | .claim .. | .read .. | .collect .. | .reload _ => true
  | _ => false

theorem advance_files (env : Environment) (s : Session) {task : Task} (filing : task.isFiling = true) :
    FilesOnly s (advance env s task).2 := by
  cases task with
  | fired t =>
    simp only [advance, onFired]
    split
    · split <;> exact ⟨_, _, _, rfl⟩
    · exact ⟨_, _, _, rfl⟩
  | parse => exact .refl s
  | store =>
    simp only [advance, onStore]
    split
    · split <;> exact ⟨_, _, _, rfl⟩
    · exact ⟨_, _, _, rfl⟩
  | claim wave =>
    simp only [advance]
    split
    · exact .refl s
    · exact claimWave_files s wave
  | read => exact .refl s
  | collect results =>
    simp only [advance]
    split <;> exact collectResults_files s results
  | reload =>
    simp only [advance, onReload]
    split <;> exact ⟨_, _, _, rfl⟩
  | _ => cases filing

-- What a task leaves for others is at most a merge loop.
theorem advance_frame (env : Environment) (s : Session) (task : Task) :
    (advance env s task).2.armed = s.armed ∧ (advance env s task).2.lastTimer = s.lastTimer ∧
      ((advance env s task).2.tasks = s.tasks ∨ ∃ id, (advance env s task).2.tasks = s.tasks ++ [.merge id]) := by
  by_cases filing : task.isFiling = true
  · obtain ⟨_, _, _, equal⟩ := advance_files env s filing
    rw [equal]
    exact ⟨rfl, rfl, .inl rfl⟩
  · cases task with
    | retry failure goal => cases goal <;> exact ⟨rfl, rfl, .inl rfl⟩
    | request contexts next =>
      cases contexts with
      | nil => exact ⟨rfl, rfl, .inl rfl⟩
      | cons id rest =>
        simp only [advance, requestMerge]
        split
        · exact ⟨rfl, rfl, .inl rfl⟩
        · split
          · exact ⟨rfl, rfl, .inl rfl⟩
          · split
            · exact ⟨rfl, rfl, .inl rfl⟩
            · exact ⟨rfl, rfl, .inr ⟨id, rfl⟩⟩
    | merge id =>
      simp only [advance, onMerge]
      split
      · exact ⟨rfl, rfl, .inl rfl⟩
      · split <;> exact ⟨rfl, rfl, .inl rfl⟩
    | publish id tree =>
      simp only [advance, onPublish]
      split
      · exact ⟨rfl, rfl, .inl rfl⟩
      · split
        · exact ⟨rfl, rfl, .inl rfl⟩
        · split <;> exact ⟨rfl, rfl, .inl rfl⟩
    | enroll | dependents | bindings | release => exact ⟨rfl, rfl, .inl rfl⟩
    | _ => exact absurd rfl filing

def Task.follows : Task → Bool
  | .enroll _ | .dependents _ | .release => true
  | _ => false

def Task.proper : Task → Bool
  | .request _ next => next.follows
  | _ => true

theorem afterLoad_follows (failure : Option LoadError) (goal : Goal) : (afterLoad failure goal).follows = true := by
  cases goal <;> cases failure <;> rfl

theorem proper_of_follows {task : Task} (follows : task.follows = true) : task.proper = true := by
  cases task <;> first | rfl | cases follows

theorem advance_proper (env : Environment) (s : Session) {task next : Task} (proper : task.proper = true)
    (step : (advance env s task).1 = some next) : next.proper = true := by
  cases task with
  | request contexts following =>
    cases contexts with
    | nil =>
      cases Option.some.inj step
      exact proper_of_follows proper
    | cons id rest =>
      cases Option.some.inj step
      exact proper
  | retry failure goal =>
    cases Option.some.inj step
    exact afterLoad_follows failure goal
  | fired t =>
    simp only [advance, onFired] at step
    split at step
    · split at step <;> cases step
      rfl
    · cases step
  | store n g f =>
    simp only [advance, onStore] at step
    split at step
    · split at step <;> cases step
      rfl
    · cases step
  | claim wave =>
    simp only [advance] at step
    split at step <;> cases step <;> rfl
  | collect results =>
    simp only [advance] at step
    split at step <;> cases step <;> rfl
  | merge id =>
    simp only [advance, onMerge] at step
    split at step
    · cases step
    · split at step <;> cases step
      rfl
  | publish id tree =>
    simp only [advance, onPublish] at step
    split at step
    · cases step
      rfl
    · split at step
      · cases step
      · split at step <;> cases step
        rfl
  | parse | read | reload | enroll | dependents | bindings =>
    cases Option.some.inj step
    rfl
  | release => cases step

theorem duties_resume (env : Environment) (s : Session) (task : Task) :
    (dutiesOf (advance env s task).1 ++ s.duties).Perm (resume env s task).duties := by
  obtain ⟨armed, -, left⟩ := advance_frame env s task
  have tasks : (advance env s task).2.tasks.flatMap Task.duties = s.tasks.flatMap Task.duties := by
    rcases left with same | ⟨id, more⟩
    · rw [same]
    · rw [more, List.flatMap_append]
      exact List.append_nil _
  have next : (advance env s task).1.toList.flatMap Task.duties = dutiesOf (advance env s task).1 := by
    cases (advance env s task).1 with
    | none => rfl
    | some next => exact List.append_nil _
  simp only [resume, duties, armed, List.flatMap_append, tasks, next]
  exact List.perm_append_comm_assoc _ _ _

end DeviceTree.Session
