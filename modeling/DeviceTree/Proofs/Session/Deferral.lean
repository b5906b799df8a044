import DeviceTree.Proofs.Session.Contexts

namespace DeviceTree.Session

def isDeferred (s : Session) (id : ContextId) : Bool := s.enrolled.elem id && s.isDirty id && !s.isMerging id

def Task.asks (id : ContextId) : Task → Bool
  | .request (first :: _) _ => first = id
  | _ => false

-- The merges that were put off when a busy file that nothing uses was closed, until they are asked for again.
def forsake (s : Session) (left : ContextId → Bool) : Action → ContextId → Bool
  | .call (.close path), id => left id || (s.isBusy path && !s.isUsed path && s.isDeferred id)
  | .work k, id => left id && !(s.tasks[k]?).any (Task.asks id)
  | _, id => left id

-- The source may change between one step and the next.
inductive Reached : Session → (ContextId → Bool) → Prop where
  | start : Reached empty fun _ => false
  | step (env : Environment) {s t : Session} {left : ContextId → Bool} {a : Action} (reached : Reached s left)
      (step : act env s a = some t) : Reached t (s.forsake left a)

theorem reached_sound {s : Session} {left : ContextId → Bool} (reached : Reached s left) : Sound s := by
  induction reached with
  | start => exact empty_sound
  | step _ _ step ih => exact act_sound ih step

-- A task on whose way the merge will be asked for.
def Task.Retries (id : ContextId) : Task → Prop
  | .claim .. | .read .. | .collect .. | .retry .. | .reload _ => True
  | .request contexts _ => id ∈ contexts
  | _ => False

-- The merge will be asked for: by a task, or by what a busy file is waiting for.
def Awaited (s : Session) (id : ContextId) : Prop :=
  (∃ task ∈ s.tasks, task.Retries id) ∨ ∃ e ∈ s.entries, e.live = true ∧ e.isBusy = true

structure Pursued (s : Session) (left : ContextId → Bool) : Prop where
  deferred : ∀ id, s.isDeferred id = true → s.Awaited id ∨ left id = true
  forsaken : ∀ id, left id = true → s.isDirty id = true ∧ s.isMerging id = false

theorem isDeferred_iff {s : Session} {id : ContextId} :
    s.isDeferred id = true ↔ id ∈ s.enrolled ∧ s.isDirty id = true ∧ s.isMerging id = false := by
  simp [isDeferred, and_assoc]

-- A file whose work is over has asked, and one that is still busy will ask.
theorem filing_awaited (env : Environment) (s : Session) {task : Task} (filing : task.isFiling = true) :
    (∃ next ∈ (advance env s task).1, ∀ id, next.Retries id) ∨
      (∀ id, ¬ task.Retries id) ∧ ∀ e ∈ s.entries, e.live = true → e.isBusy = true →
        ∃ e' ∈ (advance env s task).2.entries, e'.live = true ∧ e'.isBusy = true := by
  cases task with
  | fired t =>
    refine .inr ⟨fun _ => id, fun e present alive busy => ?_⟩
    simp only [advance, onFired]
    split
    · split
      · rename_i o found _
        by_cases mine : e.serial = o.serial
        · exact ⟨_, mem_updateEntry.mpr (.inl ⟨e, present, mine, rfl⟩), alive, by simp [Entry.isBusy]⟩
        · exact ⟨e, mem_updateEntry.mpr (.inr ⟨present, mine⟩), alive, busy⟩
      · exact ⟨e, present, alive, busy⟩
    · exact ⟨e, present, alive, busy⟩
  | parse => exact .inr ⟨fun _ => id, fun e present alive busy => ⟨e, present, alive, busy⟩⟩
  | store n g f =>
    simp only [advance, onStore]
    split
    · split
      · exact .inl ⟨_, rfl, fun _ => trivial⟩
      · exact .inr ⟨fun _ => id, fun e present alive busy => ⟨e, present, alive, busy⟩⟩
    · exact .inr ⟨fun _ => id, fun e present alive busy => ⟨e, present, alive, busy⟩⟩
  | claim =>
    simp only [advance]
    split <;> exact .inl ⟨_, rfl, fun _ => trivial⟩
  | collect =>
    simp only [advance]
    split <;> exact .inl ⟨_, rfl, fun _ => trivial⟩
  | read | reload => exact .inl ⟨_, rfl, fun _ => trivial⟩
  | _ => cases filing

theorem Pursued.keeps {s t : Session} {left : ContextId → Bool} (pursued : Pursued s left)
    (dirty : ∀ id, t.isDirty id = s.isDirty id) (merging : ∀ id, t.isMerging id = s.isMerging id)
    (enrolled : t.enrolled = s.enrolled) (awaited : ∀ id, s.isDeferred id = true → s.Awaited id → t.Awaited id) :
    Pursued t left := by
  refine ⟨fun id deferred => ?_, fun id gone => ?_⟩
  · have before : s.isDeferred id = true := by
      simpa only [isDeferred, enrolled, dirty, merging] using deferred
    exact (pursued.deferred id before).imp_left (awaited id before)
  · rw [dirty, merging]
    exact pursued.forsaken id gone

theorem awaited_step {s t : Session} {task : Task} (new : List Task) {id : ContextId}
    (awaited : Awaited { s with tasks := task :: s.tasks } id) (tasks : ∀ n ∈ new ++ s.tasks, n ∈ t.tasks)
    (retries : task.Retries id → ∃ n ∈ new, n.Retries id) (entries : t.entries = s.entries) : t.Awaited id := by
  rcases awaited with ⟨task', member, asks⟩ | ⟨e, present, alive, busy⟩
  · rcases List.mem_cons.mp member with rfl | old
    · obtain ⟨n, fresh, asks'⟩ := retries asks
      exact .inl ⟨n, tasks n (List.mem_append_left _ fresh), asks'⟩
    · exact .inl ⟨task', tasks task' (List.mem_append_right _ old), asks⟩
  · exact .inr ⟨e, entries ▸ present, alive, busy⟩

def SameMarks (i : ContextId) (s t : Session) : Prop :=
  ∀ id, i ≠ id → t.isDirty id = s.isDirty id ∧ t.isMerging id = s.isMerging id

theorem sameMarks_update {s t : Session} (i : ContextId) (f : Context → Context)
    (contexts : t.contexts = (s.updateContext i f).contexts) : SameMarks i s t := by
  intro id differ
  rw [isDirty_congr contexts, isDirty_updateContext, if_neg differ, isMerging_congr contexts, isMerging_updateContext,
    if_neg differ]
  exact ⟨rfl, rfl⟩

theorem Pursued.turns {s t : Session} {left left' : ContextId → Bool} {task : Task} {i : ContextId}
    (pursued : Pursued { s with tasks := task :: s.tasks } left) (marks : SameMarks i s t)
    (enrolled : t.enrolled = s.enrolled) (settled : t.isDeferred i = true → t.Awaited i)
    (others : ∀ id, i ≠ id → Awaited { s with tasks := task :: s.tasks } id → t.Awaited id)
    (cleared : ∀ id, left' id = true → left id = true ∧ i ≠ id) (kept : ∀ id, i ≠ id → left id = true → left' id = true) :
    Pursued t left' := by
  refine ⟨fun id deferred => ?_, fun id gone => ?_⟩
  · by_cases mine : i = id
    · cases mine
      exact .inl (settled deferred)
    · have before : ({ s with tasks := task :: s.tasks } : Session).isDeferred id = true := by
        rw [isDeferred_iff] at deferred ⊢
        rw [enrolled, (marks id mine).1, (marks id mine).2] at deferred
        exact deferred
      exact (pursued.deferred id before).imp (others id mine) (kept id mine)
  · obtain ⟨before, differ⟩ := cleared id gone
    rw [(marks id differ).1, (marks id differ).2]
    exact pursued.forsaken id before

theorem requestMerge_pursued {s : Session} {i : ContextId} {rest : List ContextId} {next : Task} {left : ContextId → Bool}
    (held : Held { s with tasks := .request (i :: rest) next :: s.tasks })
    (pursued : Pursued { s with tasks := .request (i :: rest) next :: s.tasks } left) :
    Pursued { s.requestMerge i with tasks := .request rest next :: (s.requestMerge i).tasks }
      fun id => left id && !decide (i = id) := by
  have cleared : ∀ id, (left id && !decide (i = id)) = true → left id = true ∧ i ≠ id := by simp
  have kept : ∀ id, i ≠ id → left id = true → (left id && !decide (i = id)) = true := by simp_all
  have remaining : ∀ id, i ≠ id → (Task.request (i :: rest) next).Retries id → (Task.request rest next).Retries id := by
    intro id differ member
    exact (List.mem_cons.mp member).resolve_left (Ne.symm differ)
  rcases requestMerge_cases s i with ⟨same, removed⟩ | ⟨c, found, -, merging, same⟩ | ⟨c, found, -, -, same⟩ <;> rw [same]
  · refine pursued.turns (i := i) (fun _ _ => ⟨rfl, rfl⟩) rfl ?_ ?_ cleared kept
    · intro deferred
      obtain ⟨c, found, stays⟩ := held.enrolled i (isDeferred_iff.mp deferred).1
      rw [removed c found] at stays
      cases stays
    · exact fun id differ awaited =>
        awaited_step [.request rest next] awaited (fun n member => member)
          (fun asks => ⟨_, List.mem_singleton_self _, remaining id differ asks⟩) rfl
  · refine pursued.turns (sameMarks_update i Context.asked rfl) rfl ?_ ?_ cleared kept
    · intro deferred
      have idle : (s.updateContext i Context.asked).isMerging i = false := (isDeferred_iff.mp deferred).2.2
      simp [isMerging_updateContext, found, Context.asked, merging] at idle
    · exact fun id differ awaited =>
        awaited_step [.request rest next] awaited (fun n member => member)
          (fun asks => ⟨_, List.mem_singleton_self _, remaining id differ asks⟩) rfl
  · refine pursued.turns (sameMarks_update i Context.started rfl) rfl ?_ ?_ cleared kept
    · intro deferred
      have idle : (s.updateContext i Context.started).isMerging i = false := (isDeferred_iff.mp deferred).2.2
      simp [isMerging_updateContext, found, Context.started] at idle
    · refine fun id differ awaited => awaited_step [.request rest next] awaited (fun n member => ?_)
        (fun asks => ⟨_, List.mem_singleton_self _, remaining id differ asks⟩) rfl
      rcases List.mem_append.mp member with fresh | old
      · exact List.mem_cons.mpr (.inl (List.mem_singleton.mp fresh))
      · exact List.mem_cons_of_mem _ (List.mem_append_left _ old)

section Resuming

variable {env : Environment} {s : Session} {left : ContextId → Bool}

theorem filing_pursued {task : Task} (filing : task.isFiling = true)
    (pursued : Pursued { s with tasks := task :: s.tasks } left) : Pursued (resume env s task) left := by
  obtain ⟨entries, last, pending, frame⟩ := advance_files env s filing
  have contexts : (resume env s task).contexts = s.contexts := by simp only [resume, frame]
  refine pursued.keeps (isDirty_congr contexts) (isMerging_congr contexts) (by simp only [resume, frame]) ?_
  intro id _ awaited
  rcases filing_awaited env s filing with ⟨next, step, retries⟩ | ⟨silent, busy⟩
  · exact .inl ⟨next, List.mem_append_left _ (Option.mem_toList.mpr step), retries id⟩
  · rcases awaited with ⟨task', member, retries⟩ | ⟨e, present, alive, waiting⟩
    · rcases List.mem_cons.mp member with rfl | old
      · exact absurd retries (silent id)
      · exact .inl ⟨task', List.mem_append_right _ (by rw [frame]; exact old), retries⟩
    · exact .inr (busy e present alive waiting)

theorem Pursued.passes {t : Session} {task : Task} (new : List Task)
    (pursued : Pursued { s with tasks := task :: s.tasks } left) (contexts : t.contexts = s.contexts)
    (enrolled : t.enrolled = s.enrolled) (entries : t.entries = s.entries) (tasks : ∀ n ∈ new ++ s.tasks, n ∈ t.tasks)
    (silent : ∀ id, ¬ task.Retries id) : Pursued t left :=
  pursued.keeps (isDirty_congr contexts) (isMerging_congr contexts) enrolled fun id _ awaited =>
    awaited_step new awaited tasks (fun retries => absurd retries (silent id)) entries

theorem retry_pursued {failure : Option LoadError} {goal : Goal}
    (pursued : Pursued { s with tasks := .retry failure goal :: s.tasks } left) :
    Pursued (resume env s (.retry failure goal)) left := by
  have listed : ∀ id, s.isDeferred id = true → (resume env s (.retry failure goal)).Awaited id := by
    intro id deferred
    refine .inl ⟨_, List.mem_cons_self, ?_⟩
    obtain ⟨enrolled, dirty, idle⟩ := isDeferred_iff.mp deferred
    refine List.mem_filter.mpr ⟨enrolled, ?_⟩
    cases found : s.context? id with
    | none => simp [isDirty, found] at dirty
    | some c => simp_all [isDirty, isMerging]
  cases goal with
  | openContext i =>
    exact pursued.keeps (fun id => isDirty_kept s i id fun _ => rfl) (fun id => isMerging_kept s i id fun _ => rfl) rfl
      fun id deferred _ => listed id deferred
  | mergeDependents path =>
    exact pursued.keeps (fun _ => rfl) (fun _ => rfl) rfl fun id deferred _ => listed id deferred

theorem enroll_pursued {i : ContextId} (pursued : Pursued { s with tasks := .enroll i :: s.tasks } left) :
    Pursued (resume env s (.enroll i)) left := by
  refine ⟨fun id deferred => ?_, pursued.forsaken⟩
  obtain ⟨member, marks⟩ := isDeferred_iff.mp deferred
  rcases List.mem_append.mp member with old | new
  · exact (pursued.deferred id (isDeferred_iff.mpr ⟨old, marks⟩)).imp_left fun awaited =>
      awaited_step [.request [i] .release] awaited (fun n there => there) (by simp [Task.Retries]) rfl
  · exact .inl (.inl ⟨_, List.mem_cons_self, new⟩)

-- A loop goes on or stops. Its context was not among those left, and what the others wait for stays.
theorem Pursued.loops {t : Session} {task : Task} {i : ContextId} {c : Context} (new : List Task)
    (pursued : Pursued { s with tasks := task :: s.tasks } left) (found : s.context? i = some c) (merging : c.merging = true)
    (marks : SameMarks i s t) (enrolled : t.enrolled = s.enrolled) (entries : t.entries = s.entries)
    (tasks : ∀ n ∈ new ++ s.tasks, n ∈ t.tasks) (silent : ∀ id, ¬ task.Retries id)
    (settled : t.isDeferred i = true → t.Awaited i) : Pursued t left := by
  refine pursued.turns marks enrolled settled
    (fun id _ awaited => awaited_step new awaited tasks (fun retries => absurd retries (silent id)) entries)
    (fun id gone => ⟨gone, fun equal => ?_⟩) fun _ _ gone => gone
  cases equal
  have idle : s.isMerging i = false := (pursued.forsaken i gone).2
  simp [isMerging, found, merging] at idle

-- A loop of an open context stops if nothing is wanted, or a file is busy.
theorem merge_pursued {i : ContextId} (held : Held { s with tasks := .merge i :: s.tasks })
    (pursued : Pursued { s with tasks := .merge i :: s.tasks } left) : Pursued (resume env s (.merge i)) left := by
  obtain ⟨c, found, merging⟩ := held.loop_merging i (by simp [Task.loops])
  rcases onMerge_cases found with ⟨ends, equal⟩ | ⟨-, -, -, equal⟩ <;> simp only [resume, advance, equal]
  · refine pursued.loops [] found merging (sameMarks_update i Context.stopped rfl) rfl rfl (fun n member => member)
      (by simp [Task.Retries]) fun deferred => ?_
    obtain ⟨enrolled, dirty, -⟩ := isDeferred_iff.mp deferred
    obtain ⟨c', found', stays⟩ := held.enrolled i enrolled
    cases found.symm.trans found'
    have wanted : (s.updateContext i Context.stopped).isDirty i = true := dirty
    rw [isDirty_kept s i i (f := Context.stopped) fun _ => rfl] at wanted
    rcases ends with clean | removed | busy
    · simp [isDirty, found, clean] at wanted
    · rw [stays] at removed
      cases removed
    · exact .inr (busy_of_deps busy)
  · refine pursued.loops [.publish i _] found merging (sameMarks_update i Context.begun rfl) rfl rfl (fun n member => member)
      (by simp [Task.Retries]) fun deferred => ?_
    have dirty : (s.updateContext i Context.begun).isDirty i = true := (isDeferred_iff.mp deferred).2.1
    simp [isDirty_updateContext, found, Context.begun] at dirty

theorem publish_pursued {i : ContextId} {tree : Tree} (held : Held { s with tasks := .publish i tree :: s.tasks })
    (pursued : Pursued { s with tasks := .publish i tree :: s.tasks } left) :
    Pursued (resume env s (.publish i tree)) left := by
  obtain ⟨c, found, merging⟩ := held.loop_merging i (by simp [Task.loops])
  rcases onPublish_cases found tree with ⟨p, -, equal⟩ | ⟨told, -, ⟨removed, equal⟩ | ⟨-, equal⟩⟩ <;>
    simp only [resume, advance, equal]
  · exact pursued.passes [.publish i tree] rfl rfl rfl (fun n member => member) (by simp [Task.Retries])
  · refine pursued.loops [] found merging (sameMarks_update i Context.stopped rfl) rfl rfl (fun n member => member)
      (by simp [Task.Retries]) fun deferred => ?_
    obtain ⟨c', found', stays⟩ := held.enrolled i (isDeferred_iff.mp deferred).1
    cases found.symm.trans found'
    rw [stays] at removed
    cases removed
  · refine pursued.loops [.merge i] found merging (sameMarks_update i (·.published tree told) rfl) rfl rfl (fun n member => member)
      (by simp [Task.Retries]) fun deferred => ?_
    have idle : (s.updateContext i (·.published tree told)).isMerging i = false := (isDeferred_iff.mp deferred).2.2
    simp [isMerging_updateContext, found, Context.published, merging] at idle

theorem resume_pursued (env : Environment) {task : Task} (held : Held { s with tasks := task :: s.tasks })
    (pursued : Pursued { s with tasks := task :: s.tasks } left) :
    Pursued (resume env s task) fun id => left id && !task.asks id := by
  have quiet : (∀ id, task.asks id = false) → Pursued (resume env s task) left →
      Pursued (resume env s task) fun id => left id && !task.asks id := by
    intro silent went
    simpa only [silent, Bool.not_false, Bool.and_true] using went
  cases task with
  | request contexts next =>
    cases contexts with
    | nil => exact quiet (fun _ => rfl) (pursued.passes [next] rfl rfl rfl (fun n member => member) (by simp [Task.Retries]))
    | cons i rest => exact requestMerge_pursued held pursued
  | retry => exact quiet (fun _ => rfl) (retry_pursued pursued)
  | enroll => exact quiet (fun _ => rfl) (enroll_pursued pursued)
  | dependents | bindings =>
    exact quiet (fun _ => rfl) (pursued.passes [_] rfl rfl rfl (fun n member => member) (by simp [Task.Retries]))
  | release => exact quiet (fun _ => rfl) (pursued.passes [] rfl rfl rfl (fun n member => member) (by simp [Task.Retries]))
  | merge => exact quiet (fun _ => rfl) (merge_pursued held pursued)
  | publish => exact quiet (fun _ => rfl) (publish_pursued held pursued)
  | fired | parse | store | claim | read | collect | reload => exact quiet (fun _ => rfl) (filing_pursued rfl pursued)

end Resuming

theorem awaited_of_closed {s : Session} {e : Entry} (kept : Kept s.duties e) (closed : e.isOpen = false)
    (busy : e.isBusy = true) (id : ContextId) : ∃ task ∈ s.tasks, task.Retries id := by
  have seen : ∀ x ∈ s.duties, (∃ n, x = .job n) ∨ (∃ p, x = .refresh p) → ∃ task ∈ s.tasks, task.Retries id := by
    intro x due kind
    rcases List.mem_append.mp due with ticking | work
    · obtain ⟨t, -, rfl⟩ := List.mem_map.mp ticking
      rcases kind with ⟨n, equal⟩ | ⟨p, equal⟩ <;> cases equal
    · obtain ⟨task, member, mine⟩ := List.mem_flatMap.mp work
      refine ⟨task, member, ?_⟩
      cases task with
      | read | collect | reload => exact trivial
      | fired | parse | store =>
        cases List.mem_singleton.mp mine
        rcases kind with ⟨n, equal⟩ | ⟨p, equal⟩ <;> cases equal
      | _ => cases mine
  have idle : e.timer = none := by
    cases timer : e.timer with
    | none => rfl
    | some i =>
      have opened := (kept.running i timer).2.1
      rw [closed] at opened
      cases opened
  have parsing : e.state = .parsing := by simpa [Entry.isBusy, idle] using busy
  rcases kept.outstanding parsing with job | draft | timer | refresh
  · exact seen _ job (.inl ⟨_, rfl⟩)
  · rcases kept.typed draft with opened | refresh
    · rw [closed] at opened
      cases opened
    · exact seen _ refresh (.inr ⟨_, rfl⟩)
  · exact absurd idle timer
  · exact seen _ refresh (.inr ⟨_, rfl⟩)

theorem prune_keeps {s : Session} {e : Entry} (present : e ∈ s.entries) (paths : List Bytes)
    (tended : Tended s s.duties) : e ∈ (s.prune paths).entries ∨ e.isOpen = false := by
  induction paths generalizing s with
  | nil => exact .inl present
  | cons path rest ih =>
    rcases prune_cons s path rest with equal | ⟨o, found, closed, -, equal⟩ <;> rw [equal]
    · exact ih present tended
    · obtain ⟨member, live, -⟩ := entry_mem found
      by_cases mine : e.serial = o.serial
      · cases tended.filed.same_serial present member mine
        exact .inr closed
      · refine ih ?_ (dropEntry_tended tended member live closed)
        rw [dropEntry_eq]
        exact mem_updateEntry.mpr (.inr ⟨present, mine⟩)

theorem change_busy {s : Session} (tended : Tended s s.duties) (path text : Bytes) :
    (s.change path text).contexts = s.contexts ∧ (s.change path text).enrolled = s.enrolled ∧
      ∃ e ∈ (s.change path text).entries, e.live = true ∧ e.isBusy = true := by
  obtain ⟨-, present, alive, -⟩ := ensureEntry_tended tended path
  obtain ⟨entries, last, pending, frame⟩ := ensureEntry_files s path
  have contexts : (s.ensureEntry path).2.contexts = s.contexts := by rw [frame]
  have enrolled : (s.ensureEntry path).2.enrolled = s.enrolled := by rw [frame]
  unfold change
  generalize s.ensureEntry path = made at present alive contexts enrolled ⊢
  obtain ⟨e, t⟩ := made
  dsimp only at present alive contexts enrolled ⊢
  split
  · rename_i timer armed
    obtain ⟨id, set, -⟩ := Option.bind_eq_some_iff.mp armed
    refine ⟨contexts, enrolled, _, mem_updateEntry.mpr (.inl ⟨e, present, rfl, rfl⟩), alive, ?_⟩
    simp [Entry.isBusy, set]
  · refine ⟨contexts, enrolled, _, mem_updateEntry.mpr (.inl ⟨_, mem_updateEntry.mpr (.inl ⟨e, present, rfl, rfl⟩), rfl, rfl⟩),
      alive, rfl⟩

theorem close_pursued {s : Session} {left : ContextId → Bool} (sound : Sound s) (pursued : Pursued s left) (path : Bytes) :
    Pursued (s.close path) (s.forsake left (.call (.close path))) := by
  have more : Pursued s (s.forsake left (.call (.close path))) := by
    refine ⟨fun id deferred => (pursued.deferred id deferred).imp_right fun gone => ?_, fun id gone => ?_⟩
    · simp [forsake, gone]
    · rcases Bool.or_eq_true_iff.mp gone with before | new
      · exact pursued.forsaken id before
      · exact (isDeferred_iff.mp (Bool.and_eq_true_iff.mp new).2).2
  cases found : s.entry? path with
  | none =>
    unfold close
    rw [found]
    exact more
  | some e =>
    obtain ⟨last, -, equal⟩ := close_eq found
    obtain ⟨present, alive, rfl⟩ := entry_mem found
    rw [equal]
    refine ⟨fun id deferred => ?_, more.forsaken⟩
    have before : s.isDeferred id = true := deferred
    by_cases used : s.isUsed e.path = true
    · refine .inl (.inl ⟨.reload e.path, ?_, trivial⟩)
      simp [used]
    · by_cases busy : s.isBusy e.path = true
      · refine .inr ?_
        simp [forsake, busy, used, before]
      · -- Neither the file nor anything that waits for it can have been what the merge waits for.
        refine (more.deferred id before).imp_left fun awaited => ?_
        rcases awaited with ⟨task, member, retries⟩ | ⟨o, member, live, waiting⟩
        · exact .inl ⟨task, List.mem_append_left _ member, retries⟩
        · refine .inr ⟨o, mem_updateEntry.mpr (.inr ⟨member, fun same => busy ?_⟩), live, waiting⟩
          cases sound.tended.filed.same_serial member present same
          unfold isBusy
          rw [found]
          exact waiting

theorem apply_pursued {s : Session} {left : ContextId → Bool} (sound : Sound s) (pursued : Pursued s left) (c : Call) :
    Pursued (c.apply s) (s.forsake left (.call c)) := by
  cases c with
  | change path text =>
    obtain ⟨contexts, enrolled, busy⟩ := change_busy sound.tended path text
    exact pursued.keeps (isDirty_congr contexts) (isMerging_congr contexts) enrolled fun _ _ _ => .inr busy
  | close path => exact close_pursued sound pursued path
  | openContext name base overlays =>
    have marks := openContext_marks s name base overlays
    exact pursued.keeps (fun id => (marks id).1) (fun id => (marks id).2) rfl fun id _ awaited =>
      awaited.imp_left fun ⟨task, member, retries⟩ => ⟨task, List.mem_append_left _ member, retries⟩
  | remove i =>
    rcases remove_cases s i with same | ⟨c, -, -, equal⟩
    · simp only [Call.apply, same]
      exact pursued
    · have struck : Tended (s.strike i) (s.strike i).duties := sound.tended.frame rfl rfl rfl
      obtain ⟨-, entries, last, pruned⟩ := prune_tended struck c.deps
      have dirty : ∀ id, (s.strike i).isDirty id = s.isDirty id := fun id => isDirty_kept s i id fun _ => rfl
      have merging : ∀ id, (s.strike i).isMerging id = s.isMerging id := fun id => isMerging_kept s i id fun _ => rfl
      have keeps : ∀ e ∈ s.entries, e ∈ ((s.strike i).prune c.deps).entries ∨ e.isOpen = false :=
        fun e present => prune_keeps (s := s.strike i) present c.deps struck
      rw [pruned] at keeps
      simp only [Call.apply, equal, pruned]
      refine ⟨fun id deferred => ?_, fun id gone => ?_⟩
      · obtain ⟨member, wanted, idle⟩ := isDeferred_iff.mp deferred
        have before : s.isDeferred id = true :=
          isDeferred_iff.mpr ⟨(List.mem_filter.mp member).1, (dirty id).symm.trans wanted, (merging id).symm.trans idle⟩
        refine (pursued.deferred id before).imp_left fun awaited => ?_
        rcases awaited with retried | ⟨e, present, alive, busy⟩
        · exact .inl retried
        · rcases keeps e present with stays | closed
          · exact .inr ⟨e, stays, alive, busy⟩
          · exact .inl (awaited_of_closed (sound.tended.kept e present alive) closed busy id)
      · exact ⟨(dirty id).trans (pursued.forsaken id gone).1, (merging id).trans (pursued.forsaken id gone).2⟩
  | loadBindings paths =>
    exact pursued.keeps (fun _ => rfl) (fun _ => rfl) rfl fun id _ awaited =>
      awaited.imp_left fun ⟨task, member, retries⟩ => ⟨task, List.mem_append_left _ member, retries⟩

theorem reached_pursued {s : Session} {left : ContextId → Bool} (reached : Reached s left) : Pursued s left := by
  induction reached with
  | start => exact ⟨nofun, nofun⟩
  | @step env s t left a prior step ih =>
    have sound := reached_sound prior
    cases a with
    | call c =>
      obtain ⟨-, rfl⟩ := act_call_iff.mp step
      exact apply_pursued sound ih c
    | work k =>
      obtain ⟨-, task, present, rfl⟩ := act_work_iff.mp step
      have order := pick_perm present
      have taken : Pursued { s with tasks := task :: s.tasks.eraseIdx k } left :=
        ih.keeps (fun _ => rfl) (fun _ => rfl) rfl fun id _ awaited =>
          awaited.imp_left fun ⟨other, member, retries⟩ => ⟨other, order.mem_iff.mp member, retries⟩
      have went := resume_pursued env (s := { s with tasks := s.tasks.eraseIdx k }) (sound.held.perm order) taken
      have same : s.forsake left (.work k) = fun id => left id && !task.asks id := by
        funext id
        simp [forsake, present]
      rw [same]
      exact went
    | fire k =>
      obtain ⟨-, u, present, rfl⟩ := act_fire_iff.mp step
      exact ih.keeps (fun _ => rfl) (fun _ => rfl) rfl fun id _ awaited =>
        awaited.imp_left fun ⟨task, member, retries⟩ => ⟨task, List.mem_append_left _ member, retries⟩

-- When no work is outstanding, the only tasks are closed files that wait to be read anew.
theorem reloads_of_idle {s : Session} (held : Held s) (idle : s.pending = 0) :
    s.armed = [] ∧ ∀ task ∈ s.tasks, ∃ path, task = .reload path := by
  have balance := held.balance
  have counts : s.armed.length = 0 ∧ s.tasks.countP Task.counted = 0 := by omega
  refine ⟨List.eq_nil_of_length_eq_zero counts.1, fun task member => ?_⟩
  have free := List.countP_eq_zero.mp counts.2 task member
  cases task with
  | reload path => exact ⟨path, rfl⟩
  | _ => exact absurd rfl free

theorem reload_of_awaited {s : Session} (sound : Sound s) (idle : s.pending = 0) {id : ContextId} (awaited : s.Awaited id) :
    ∃ path, .reload path ∈ s.tasks := by
  obtain ⟨armed, reloads⟩ := reloads_of_idle sound.held idle
  rcases awaited with ⟨task, member, -⟩ | ⟨e, present, alive, busy⟩
  · obtain ⟨path, rfl⟩ := reloads task member
    exact ⟨path, member⟩
  · have due : ∀ x ∈ s.duties, ∃ path, .reload path ∈ s.tasks := by
      intro x member
      rw [duties, armed, List.map_nil, List.nil_append] at member
      obtain ⟨task, there, -⟩ := List.mem_flatMap.mp member
      obtain ⟨path, rfl⟩ := reloads task there
      exact ⟨path, there⟩
    have kept := sound.tended.kept e present alive
    rcases Bool.or_eq_true_iff.mp busy with set | parsing
    · obtain ⟨i, timer⟩ := Option.isSome_iff_exists.mp set
      exact due _ (kept.running i timer).2.2
    · rcases kept.outstanding (of_decide_eq_true parsing) with job | draft | timer | refresh
      · exact due _ job
      · exact due _ draft
      · obtain ⟨i, set⟩ := Option.ne_none_iff_exists'.mp timer
        exact due _ (kept.running i set).2.2
      · exact due _ refresh

theorem dirty_iff_forsaken {s : Session} {left : ContextId → Bool} (reached : Reached s left) (idle : s.pending = 0) :
    ∀ id ∈ s.enrolled, (left id = true → s.isDirty id = true) ∧
      (s.isDirty id = true → left id = true ∨ ∃ path, .reload path ∈ s.tasks) := by
  have sound := reached_sound reached
  have pursued := reached_pursued reached
  refine fun id member => ⟨fun gone => (pursued.forsaken id gone).1, fun dirty => ?_⟩
  have stopped : s.isMerging id = false := by
    have loops := sound.held.loops id
    cases merging : s.isMerging id with
    | false => rfl
    | true =>
      rw [merging, if_pos rfl] at loops
      obtain ⟨task, there, loop⟩ := List.countP_pos_iff.mp (loops ▸ Nat.one_pos)
      obtain ⟨path, rfl⟩ := (reloads_of_idle sound.held idle).2 task there
      cases loop
  rcases pursued.deferred id (isDeferred_iff.mpr ⟨member, dirty, stopped⟩) with awaited | gone
  · exact .inr (reload_of_awaited sound idle awaited)
  · exact .inl gone

theorem reached_run {env : Environment} {s t : Session} {left : ContextId → Bool} {actions : List Action}
    (reached : Reached s left) (run : actions.foldlM (act env) s = some t) : ∃ left', Reached t left' := by
  induction actions generalizing s left with
  | nil =>
    cases Option.some.inj run
    exact ⟨left, reached⟩
  | cons a rest ih =>
    rw [List.foldlM_cons] at run
    obtain ⟨u, step, later⟩ := Option.bind_eq_some_iff.mp run
    exact ih (.step env reached step) later

def header : Environment :=
  ⟨.ofTable [(utf8 "/a.dts", utf8 "#include \"m.h\"\n"), (utf8 "/m.h", [])], [], fun _ => []⟩

-- The header is edited and closed again, and between the two the merge that new bindings ask for is put off.
def editHeader : List Action :=
  [.call (.openContext [] (utf8 "/a.dts") [])] ++ List.replicate 13 (.work 0) ++
    [.call (.change (utf8 "/m.h") []), .call (.loadBindings [])] ++ List.replicate 5 (.work 0) ++
    [.call (.close (utf8 "/m.h"))]

theorem header_reached : ∃ s left, Reached s left ∧
    (s.pending = 0 ∧ s.tasks = [] ∧ s.enrolled = [0] ∧ s.isDirty 0 = true) := by
  have outcome : ((editHeader.foldlM (act header) empty).map fun s =>
      (s.pending, s.tasks.isEmpty, s.enrolled, s.isDirty 0)) = some (0, true, [0], true) := by decide +kernel
  obtain ⟨s, run, equal⟩ := Option.map_eq_some_iff.mp outcome
  obtain ⟨left, reached⟩ := reached_run .start run
  simp only [Prod.mk.injEq, List.isEmpty_iff] at equal
  exact ⟨s, left, reached, equal⟩

theorem header_still_dirty : ¬ ∀ (s : Session) (left : ContextId → Bool), Reached s left → s.pending = 0 →
    (∀ path, .reload path ∉ s.tasks) → ∀ id ∈ s.enrolled, s.isDirty id = false := by
  intro clean
  obtain ⟨s, left, reached, idle, tasks, enrolled, dirty⟩ := header_reached
  have settled := clean s left reached idle (by simp [tasks]) 0 (by simp [enrolled])
  rw [dirty] at settled
  cases settled

theorem header_forsaken : ∃ s left, Reached s left ∧ s.pending = 0 ∧ s.isDirty 0 = true ∧ left 0 = true := by
  obtain ⟨s, left, reached, idle, tasks, enrolled, dirty⟩ := header_reached
  have given := (dirty_iff_forsaken reached idle 0 (by simp [enrolled])).2 dirty
  exact ⟨s, left, reached, idle, dirty, given.resolve_right (by simp [tasks])⟩

end DeviceTree.Session
