import DeviceTree.Proofs.Session.Deferral
import DeviceTree.Proofs.Session.Overtaking
import DeviceTree.Proofs.Session.Shadows

namespace DeviceTree.Session

variable {env : Environment} {s t u : Session}

def Action.adds : Action → Bool
  | .call (.change ..) | .call (.openContext ..) | .work _ | .fire _ => true
  | .call _ => false

inductive Grown (env : Environment) : Session → Prop where
  | start : Grown env empty
  | step {s t : Session} {a : Action} (before : Grown env s) (adds : a.adds = true) (step : act env s a = some t) :
      Grown env t

namespace Grown

theorem reached (grown : Grown env s) : Reached s fun _ => false := by
  induction grown with
  | start => exact .start
  | @step s t a before adds step ih =>
    have nothing : s.forsake (fun _ => false) a = fun _ => false := by
      funext id
      cases a with
      | call c => cases c <;> first | rfl | cases adds
      | work | fire => rfl
    exact nothing ▸ ih.step env step

theorem works (grown : Grown env s) (works : Works env s t) : Grown env t := by
  induction works with
  | refl => exact grown
  | work k step _ ih => exact ih (grown.step rfl step)
  | fire k step _ ih => exact ih (grown.step rfl step)

theorem call (grown : Grown env s) (running : s.crash = none) {c : Call} (adds : (Action.call c).adds = true) :
    Grown env (c.apply s) :=
  grown.step adds (act_call_iff.mpr ⟨running, rfl⟩)

theorem change (grown : Grown env s) (running : s.crash = none) (path text : Bytes) : Grown env (s.change path text) :=
  grown.call running (c := .change path text) rfl

end Grown

-- A file that is parsed or will be: its text is the editor's, or it is being read.
def Entry.IsPromised (e : Entry) : Prop := e.parsed.isSome = true ∨ e.isOpen = true ∨ e.state = .parsing

def Promised (env : Environment) (s : Session) (p : Bytes) : Prop :=
  onDisk env p = none ∨ ∃ e, s.entry? p = some e ∧ e.IsPromised

def Edited (s : Session) : Prop := ∀ e ∈ s.entries, e.generation = 0 ∨ e.isOpen = true

structure Furthers (env : Environment) (named : List Bytes) (s t : Session) : Prop where
  promised : ∀ p, Promised env s p → Promised env t p
  files : ∀ p f, t.fileAt? p = some f → s.fileAt? p = some f ∨ ∀ q ∈ includesOf f, q ∈ named
  edited : s.Edited → t.Edited

namespace Furthers

variable {named more : List Bytes}

theorem of_entries (same : t.entries = s.entries) : Furthers env [] s t where
  promised p promise := promise.imp_right fun ⟨e, found, kept⟩ => ⟨e, (entry_frame same p).trans found, kept⟩
  files p f found := by
    rw [fileAt?, entry_frame same] at found
    exact .inl found
  edited edited := by
    rw [Edited, same]
    exact edited

theorem trans (first : Furthers env named s t) (second : Furthers env more t u) : Furthers env (named ++ more) s u where
  promised p promise := second.promised p (first.promised p promise)
  files p f found := by
    rcases second.files p f found with old | new
    · exact (first.files p f old).imp_right fun new q member => List.mem_append_left _ (new q member)
    · exact .inr fun q member => List.mem_append_right _ (new q member)
  edited edited := second.edited (first.edited edited)

theorem update (n : Nat) {f : Entry → Entry} (path : ∀ e, (f e).path = e.path) (live : ∀ e, (f e).live = e.live)
    (promised : ∀ p e, s.entry? p = some e → e.serial = n → e.IsPromised → onDisk env p = none ∨ (f e).IsPromised)
    (stored : ∀ p e g, s.entry? p = some e → e.serial = n → (f e).parsed = some g →
      e.parsed = some g ∨ ∀ q ∈ includesOf g, q ∈ named)
    (edited : ∀ e, e.generation = 0 ∨ e.isOpen = true → (f e).generation = 0 ∨ (f e).isOpen = true) :
    Furthers env named s (s.updateEntry n f) where
  promised p promise := by
    rcases promise with unread | ⟨e, found, kept⟩
    · exact .inl unread
    · have after := entry_updateEntry s n path live p
      rw [found, Option.map_some] at after
      split at after
      · rename_i mine
        exact (promised p e found mine kept).imp_right fun kept => ⟨f e, after, kept⟩
      · exact .inr ⟨e, after, kept⟩
  files p g found := by
    rw [fileAt?, entry_updateEntry s n path live] at found
    cases there : s.entry? p with
    | none => simp [there] at found
    | some e =>
      rw [there, Option.map_some, Option.bind_some] at found
      rw [fileAt_entry there]
      split at found
      · rename_i mine
        exact stored p e g there mine found
      · exact .inl found
  edited before e member := by
    rcases mem_updateEntry.mp member with ⟨o, present, -, rfl⟩ | ⟨present, -⟩
    · exact edited o (before o present)
    · exact before e present

end Furthers

theorem ensureEntry_furthers (s : Session) (path : Bytes) : Furthers env [] s (s.ensureEntry path).2 where
  promised p promise := by
    rcases promise with unread | ⟨e, found, kept⟩
    · exact .inl unread
    · refine .inr ⟨e, ?_, kept⟩
      rw [entry_ensureEntry]
      split
      · rename_i mine
        subst mine
        rw [ensureEntry, found]
      · exact found
  files p f found := .inl ((ensureEntry_fileAt s path p).symm.trans found)
  edited before e member := by
    unfold ensureEntry at member
    split at member
    · exact before e member
    · rcases List.mem_append.mp member with old | new
      · exact before e old
      · cases List.mem_singleton.mp new
        exact .inl rfl

theorem claimWave_furthers (s : Session) (wave : List Bytes) :
    Furthers env [] s (s.claimWave wave).2 ∧ ∀ p ∈ wave, Promised env (s.claimWave wave).2 p := by
  induction wave generalizing s with
  | nil => exact ⟨.of_entries rfl, nofun⟩
  | cons path rest ih =>
    have made : Furthers env [] s _ := ensureEntry_furthers s path
    have there := entry_ensureEntry s path path
    rw [if_pos rfl] at there
    unfold claimWave
    generalize s.ensureEntry path = fresh at made there
    obtain ⟨e, u⟩ := fresh
    dsimp only at made there ⊢
    split
    · rename_i taken
      obtain ⟨further, claimed⟩ := ih u
      refine ⟨made.trans further, List.forall_mem_cons.mpr ⟨further.promised path (.inr ⟨e, there, ?_⟩), claimed⟩⟩
      rw [Bool.or_eq_true, decide_eq_true_eq] at taken
      exact taken.imp_right .inr
    · obtain ⟨further, claimed⟩ := ih (u.updateEntry e.serial fun e => { e with state := .parsing })
      have marks : Furthers env [] u (u.updateEntry e.serial fun e => { e with state := .parsing }) :=
        .update _ (fun _ => rfl) (fun _ => rfl) (fun _ _ _ _ _ => .inr (.inr (.inr rfl))) (fun _ _ _ _ _ => .inl) fun _ => id
      have marked := entry_updateEntry (f := fun e => { e with state := .parsing }) u e.serial (fun _ => rfl)
        (fun _ => rfl) path
      rw [there, Option.map_some, if_pos rfl] at marked
      refine ⟨made.trans (marks.trans further), List.forall_mem_cons.mpr ⟨?_, claimed⟩⟩
      exact further.promised path (.inr ⟨_, marked, .inr (.inr rfl)⟩)

-- A job reads the file that it was made for, and no edit has come between unless the file is open.
def Job.Suits (s : Session) (j : Job) : Prop :=
  ∀ e ∈ s.entries, e.live = true → e.serial = j.serial → e.path = j.path ∧ (e.generation = j.generation ∨ e.isOpen = true)

theorem collectResult_updates (s : Session) (j : Job) (result : Option File) :
    ∃ (parsed : Entry → Option File) (state : Entry → ParseState),
      (s.collectResult j result).2 = s.updateEntry j.serial fun e => { e with parsed := parsed e, state := state e } := by
  unfold collectResult
  split
  · split
    · exact ⟨_, _, rfl⟩
    · exact ⟨_, _, rfl⟩
  · exact ⟨_, _, rfl⟩

theorem Job.Suits.collected {i j : Job} (suits : i.Suits s) (result : Option File) :
    i.Suits (s.collectResult j result).2 := by
  obtain ⟨parsed, state, equal⟩ := collectResult_updates s j result
  rw [equal]
  intro e member alive same
  rcases mem_updateEntry.mp member with ⟨o, present, -, rfl⟩ | ⟨present, -⟩
  · exact suits o present alive same
  · exact suits e present alive same

-- A read that is not stored has failed, or was overtaken by the editor.
theorem collectResult_furthers (filed : Filed s.entries s.lastSerial) {j : Job} (suits : j.Suits s) :
    Furthers env (s.collectResult j (readJob env j).toOption).1 s (s.collectResult j (readJob env j).toOption).2 := by
  have kept : ∀ e : Entry, e.generation = 0 ∨ e.isOpen = true → e.generation = 0 ∨ e.isOpen = true := fun _ => id
  have settled : (∀ p e, s.entry? p = some e → e.serial = j.serial → onDisk env p = none ∨ e.isOpen = true) →
      Furthers env [] s (settleState s j.serial) := by
    intro excused
    refine .update _ (fun _ => rfl) (fun _ => rfl) (fun p e found mine promise => ?_) (fun _ _ _ _ _ => .inl) kept
    rcases promise with parsed | opened | parsing
    · exact .inr (.inl parsed)
    · exact .inr (.inr (.inl opened))
    · exact (excused p e found mine).imp_right fun opened => .inr (.inl opened)
  unfold collectResult
  split
  · rename_i o f found read
    split
    · refine .update _ (fun _ => rfl) (fun _ => rfl) (fun _ _ _ _ _ => .inr (.inl rfl)) (fun _ _ g _ _ stored => ?_) kept
      cases Option.some.inj stored
      exact .inr fun q member => member
    · rename_i stale
      refine settled fun p e there mine => .inr ?_
      obtain ⟨present, serial⟩ := serial_mem found
      obtain ⟨member, alive, -⟩ := entry_mem there
      cases filed.same_serial present member (serial.trans mine.symm)
      exact (suits o member alive mine).2.resolve_left stale
  · rename_i unread
    refine settled fun p e there mine => ?_
    obtain ⟨member, alive, located⟩ := entry_mem there
    have serial : s.entryBySerial? j.serial = some e := mine ▸ serial_of_mem filed member
    have failed : (readJob env j).toOption = none :=
      Option.eq_none_iff_forall_ne_some.mpr fun f read => unread e f serial read
    unfold readJob at failed
    split at failed
    · cases failed
    · refine .inl ?_
      rw [← located, (suits e member alive mine).1]
      exact failed

theorem collectResults_furthers (filed : Filed s.entries s.lastSerial) {jobs : List Job} (suit : ∀ j ∈ jobs, j.Suits s) :
    Furthers env (s.collectResults (jobs.map fun j => (j, (readJob env j).toOption))).1 s
      (s.collectResults (jobs.map fun j => (j, (readJob env j).toOption))).2 := by
  induction jobs generalizing s with
  | nil => exact .of_entries rfl
  | cons j rest ih =>
    have first : Furthers env _ s _ := collectResult_furthers filed (suit j List.mem_cons_self)
    obtain ⟨filed, -⟩ := collectResult_succeeds filed j (readJob env j).toOption
    exact first.trans (ih filed fun i member => (suit i (List.mem_cons_of_mem _ member)).collected _)

theorem change_furthers (s : Session) (path text : Bytes) : Furthers env [] s (s.change path text) := by
  obtain ⟨timer, timerId, -, -, entries⟩ := change_entries s path text
  have edits : Furthers env [] (s.ensureEntry path).2 _ := .update (s.ensureEntry path).1.serial
    (f := fun e => { e with text, isOpen := true, generation := e.generation + 1, timer := timer e, timerId := timerId e })
    (fun _ => rfl) (fun _ => rfl) (fun _ _ _ _ _ => .inr (.inr (.inl rfl))) (fun _ _ _ _ _ => .inl) fun _ _ => .inr rfl
  exact (ensureEntry_furthers s path).trans (edits.trans (.of_entries entries))

section Tasks

-- Only the roots of a context have to be readable. Where none fails, what a task has read is what the source holds.
def Task.Apt (env : Environment) : Task → Prop
  | .claim _ isRoots goal | .read _ _ isRoots goal => isRoots = true → ∃ id, goal = .openContext id
  | .collect results none _ => ∃ jobs : List Job, results = jobs.map fun j => (j, (readJob env j).toOption)
  | .collect _ (some _) goal => ∃ id, goal = .openContext id
  | .reload _ => False
  | _ => True

def Task.admits? : Task → Option ContextId
  | .collect _ (some _) _ | .retry (some _) _ => none
  | task => task.opens?

theorem read_whole {wave : List Bytes} {jobs : List Job} {isRoots : Bool} {goal : Goal}
    (whole : failureIn env wave jobs isRoots goal = none) (j : Job) : isGivenUp env wave jobs isRoots goal j = false := by
  unfold isGivenUp
  cases isRoots with
  | false => rfl
  | true =>
    have unstopped : stopping? env wave jobs goal = none := (Option.or_eq_none_iff.mp whole).1
    simp [unstopped]

theorem opens_of_admits {task : Task} {id : ContextId} (admits : task.admits? = some id) : task.opens? = some id := by
  unfold Task.admits? at admits
  split at admits
  · cases admits
  · cases admits
  · exact admits

theorem filing_apt (env : Environment) (s : Session) {task next : Task} (filing : task.isFiling = true) (apt : task.Apt env)
    (step : (advance env s task).1 = some next) :
    next.Apt env ∧ ∀ id, next.admits? = some id → task.admits? = some id := by
  have never : ∀ {goal : ContextId → Prop} (id : ContextId), (none : Option ContextId) = some id → goal id := by
    intro _ id impossible
    cases impossible
  have unforced : ∀ {goal : Prop}, false = true → goal := by
    intro _ impossible
    cases impossible
  cases task with
  | fired t =>
    simp only [advance, onFired] at step
    split at step
    · split at step
      · cases Option.some.inj step
        exact ⟨trivial, never⟩
      · cases step
    · cases step
  | parse =>
    cases Option.some.inj step
    exact ⟨trivial, never⟩
  | store n g f =>
    simp only [advance, onStore] at step
    split at step
    · split at step
      · cases Option.some.inj step
        exact ⟨unforced, never⟩
      · cases step
    · cases step
  | claim wave isRoots goal =>
    simp only [advance] at step
    split at step
    · cases Option.some.inj step
      exact ⟨trivial, fun _ => id⟩
    · cases Option.some.inj step
      exact ⟨apt, fun _ => id⟩
  | read wave jobs isRoots goal =>
    cases Option.some.inj step
    cases fails : failureIn env wave jobs isRoots goal with
    | some failure =>
      refine ⟨apt ?_, never⟩
      cases isRoots with
      | false => cases fails
      | true => rfl
    | none =>
      refine ⟨⟨jobs, List.map_congr_left fun j _ => ?_⟩, fun _ => id⟩
      rw [resultOf, read_whole fails, if_neg Bool.false_ne_true]
  | collect results failure goal =>
    simp only [advance] at step
    cases failure with
    | some failure =>
      cases Option.some.inj step
      exact ⟨trivial, never⟩
    | none =>
      cases Option.some.inj step
      exact ⟨unforced, fun _ => id⟩
  | reload path => cases apt
  | _ => cases filing

theorem serving_apt (env : Environment) (s : Session) {task next : Task} (serving : task.isFiling = false)
    (proper : task.proper = true) (step : (advance env s task).1 = some next) :
    next.Apt env ∧ ∀ id, next.admits? = some id → task.admits? = some id := by
  have never : ∀ {goal : ContextId → Prop} (id : ContextId), (none : Option ContextId) = some id → goal id := by
    intro _ id impossible
    cases impossible
  cases task with
  | retry failure goal =>
    cases Option.some.inj step
    refine ⟨trivial, ?_⟩
    cases goal with
    | mergeDependents path => exact never
    | openContext i =>
      cases failure with
      | none => exact fun _ => id
      | some e => exact never
  | request contexts after =>
    cases contexts with
    | nil =>
      cases Option.some.inj step
      cases next with
      | enroll i => exact ⟨trivial, fun _ => id⟩
      | dependents | release => exact ⟨trivial, never⟩
      | _ => cases proper
    | cons i rest =>
      cases Option.some.inj step
      refine ⟨trivial, fun id admits => ?_⟩
      cases after <;> exact admits
  | merge i =>
    simp only [advance, onMerge] at step
    split at step
    · cases step
    · split at step
      · cases step
      · cases Option.some.inj step
        exact ⟨trivial, never⟩
  | publish i tree =>
    simp only [advance, onPublish] at step
    split at step
    · cases Option.some.inj step
      exact ⟨trivial, never⟩
    · split at step
      · cases step
      · split at step
        · cases step
        · cases Option.some.inj step
          exact ⟨trivial, never⟩
  | release => cases step
  | enroll | dependents | bindings =>
    cases Option.some.inj step
    exact ⟨trivial, never⟩
  | _ => cases serving

theorem advance_apt (env : Environment) (s : Session) {task next : Task} (proper : task.proper = true) (apt : task.Apt env)
    (step : (advance env s task).1 = some next) :
    next.Apt env ∧ ∀ id, next.admits? = some id → task.admits? = some id := by
  cases filing : task.isFiling with
  | true => exact filing_apt env s filing apt step
  | false => exact serving_apt env s filing proper step

theorem roots_update (s : Session) (i : ContextId) {f : Context → Context} (keeps : ∀ c, (f c).roots = c.roots)
    (id : ContextId) : ((s.updateContext i f).context? id).map Context.roots = (s.context? id).map Context.roots := by
  rw [context_updateContext]
  split
  · rw [Option.map_map]
    exact congrArg (Option.map · _) (funext keeps)
  · rfl

theorem advance_serves (env : Environment) (s : Session) {task : Task} (serving : task.isFiling = false) :
    (advance env s task).2.entries = s.entries ∧
      (∀ id, ((advance env s task).2.context? id).map Context.roots = (s.context? id).map Context.roots) ∧
      ((advance env s task).2.enrolled = s.enrolled ∨
        ∃ id, task = .enroll id ∧ (advance env s task).2.enrolled = s.enrolled ++ [id]) := by
  cases task with
  | retry failure goal =>
    cases goal with
    | mergeDependents path => exact ⟨rfl, fun _ => rfl, .inl rfl⟩
    | openContext i => exact ⟨rfl, roots_update s i fun _ => rfl, .inl rfl⟩
  | request contexts after =>
    cases contexts with
    | nil => exact ⟨rfl, fun _ => rfl, .inl rfl⟩
    | cons i rest =>
      have asks : (advance env s (.request (i :: rest) after)).2 = s.requestMerge i := rfl
      rcases requestMerge_cases s i with ⟨same, -⟩ | ⟨c, -, -, -, same⟩ | ⟨c, -, -, -, same⟩ <;> rw [asks, same]
      · exact ⟨rfl, fun _ => rfl, .inl rfl⟩
      · exact ⟨rfl, roots_update s i fun _ => rfl, .inl rfl⟩
      · exact ⟨rfl, roots_update s i fun _ => rfl, .inl rfl⟩
  | enroll i => exact ⟨rfl, fun _ => rfl, .inr ⟨i, rfl, rfl⟩⟩
  | merge i =>
    simp only [advance, onMerge]
    split
    · exact ⟨rfl, fun _ => rfl, .inl rfl⟩
    · split
      · exact ⟨rfl, roots_update s i fun _ => rfl, .inl rfl⟩
      · exact ⟨rfl, roots_update s i fun _ => rfl, .inl rfl⟩
  | publish i tree =>
    simp only [advance, onPublish]
    split
    · exact ⟨rfl, fun _ => rfl, .inl rfl⟩
    · split
      · exact ⟨rfl, fun _ => rfl, .inl rfl⟩
      · split
        · exact ⟨rfl, roots_update s i fun _ => rfl, .inl rfl⟩
        · exact ⟨rfl, roots_update s i fun _ => rfl, .inl rfl⟩
  | dependents | bindings | release => exact ⟨rfl, fun _ => rfl, .inl rfl⟩
  | _ => cases serving

theorem advance_contexts (env : Environment) (s : Session) (task : Task) :
    (∀ id, ((advance env s task).2.context? id).map Context.roots = (s.context? id).map Context.roots) ∧
      ((advance env s task).2.enrolled = s.enrolled ∨
        ∃ id, task = .enroll id ∧ (advance env s task).2.enrolled = s.enrolled ++ [id]) := by
  cases filing : task.isFiling with
  | true =>
    obtain ⟨entries, last, pending, frame⟩ := advance_files env s filing
    rw [frame]
    exact ⟨fun _ => rfl, .inl rfl⟩
  | false => exact (advance_serves env s filing).2

-- A root of a context could not be read, and what the others include is not looked at.
def Task.Fails (task : Task) (next : Option Task) : Prop :=
  task.isFiling = true ∧ ∃ id after, task.opens? = some id ∧ next = some after ∧ after.admits? = none

theorem collectResults_edited (edited : s.Edited) (results : List (Job × Option File)) : (s.collectResults results).2.Edited := by
  induction results generalizing s with
  | nil => exact edited
  | cons r rest ih =>
    obtain ⟨parsed, state, equal⟩ := collectResult_updates s r.1 r.2
    refine ih (s := (s.collectResult r.1 r.2).2) ?_
    rw [equal]
    intro e member
    rcases mem_updateEntry.mp member with ⟨o, present, -, rfl⟩ | ⟨present, -⟩
    · exact edited o present
    · exact edited e present

-- An edit that came after the job was made has left the file open.
theorem Edited.suits (edited : s.Edited) {j : Job} (past : ∀ e ∈ s.entries, e.live = true → j.serial = e.serial →
    j.path = e.path ∧ j.generation ≤ e.generation) : j.Suits s := by
  intro e present alive mine
  obtain ⟨located, older⟩ := past e present alive mine.symm
  refine ⟨located.symm, ?_⟩
  rcases edited e present with first | opened
  · exact .inl (first.trans (Nat.le_zero.mp (first ▸ older)).symm)
  · exact .inr opened

theorem advance_furthers {task : Task} (filed : Filed s.entries s.lastSerial) (apt : task.Apt env) (edited : s.Edited)
    (past : ∀ d ∈ task.drafts, ∀ e ∈ s.entries, e.live = true → d.serial = e.serial →
      d.path = e.path ∧ d.generation ≤ e.generation) :
    task.Fails (advance env s task).1 ∧ (advance env s task).2.Edited ∨
      ∃ named, Furthers env named s (advance env s task).2 ∧ (∀ p ∈ task.wave, Promised env (advance env s task).2 p) ∧
        (∀ q ∈ named, q ∈ (advance env s task).1.toList.flatMap Task.wave) ∧ task.losses env = [] := by
  by_cases serving : task.isFiling = false
  · have plain : task.wave = [] ∧ task.losses env = [] := by
      cases task <;> first | exact ⟨rfl, rfl⟩ | cases serving
    exact .inr ⟨[], .of_entries (advance_serves env s serving).1, plain.1 ▸ List.forall_mem_nil _, List.forall_mem_nil _, plain.2⟩
  · cases task with
    | fired t =>
      refine .inr ⟨[], ?_, List.forall_mem_nil _, List.forall_mem_nil _, rfl⟩
      simp only [advance, onFired]
      split
      · split
        · exact .update _ (fun _ => rfl) (fun _ => rfl) (fun _ _ _ _ _ => .inr (.inr (.inr rfl))) (fun _ _ _ _ _ => .inl)
            fun _ => id
        · exact .of_entries rfl
      · exact .of_entries rfl
    | store n g f =>
      simp only [advance, onStore]
      split
      · split
        · refine .inr ⟨includesOf f, .update _ (fun _ => rfl) (fun _ => rfl) (fun _ _ _ _ _ => .inr (.inl rfl))
            (fun _ _ h _ _ stored => ?_) fun _ => id, List.forall_mem_nil _, fun q member => ?_, rfl⟩
          · cases Option.some.inj stored
            exact .inr fun q member => member
          · simpa [Task.wave] using member
        · exact .inr ⟨[], .of_entries rfl, List.forall_mem_nil _, List.forall_mem_nil _, rfl⟩
      · exact .inr ⟨[], .of_entries rfl, List.forall_mem_nil _, List.forall_mem_nil _, rfl⟩
    | claim wave isRoots goal =>
      simp only [advance]
      split
      · rename_i none
        cases List.isEmpty_iff.mp none
        exact .inr ⟨[], .of_entries rfl, List.forall_mem_nil _, List.forall_mem_nil _, rfl⟩
      · obtain ⟨further, claimed⟩ := claimWave_furthers (s := s) wave
        exact .inr ⟨[], further, claimed, List.forall_mem_nil _, rfl⟩
    | read wave jobs isRoots goal =>
      cases fails : failureIn env wave jobs isRoots goal with
      | some failure =>
        have roots : isRoots = true := by
          cases isRoots with
          | false => cases fails
          | true => rfl
        obtain ⟨id, rfl⟩ := apt roots
        exact .inl ⟨⟨rfl, id, _, rfl, rfl, by rw [fails]; rfl⟩, edited⟩
      | none =>
        refine .inr ⟨[], .of_entries rfl, List.forall_mem_nil _, List.forall_mem_nil _, ?_⟩
        rw [Task.losses, List.filter_eq_nil_iff.mpr fun j _ => by rw [read_whole fails]; exact Bool.false_ne_true, List.map_nil]
    | collect results failure goal =>
      cases failure with
      | some failure =>
        obtain ⟨id, rfl⟩ := apt
        exact .inl ⟨⟨rfl, id, _, rfl, rfl, rfl⟩, collectResults_edited edited results⟩
      | none =>
        obtain ⟨jobs, rfl⟩ := apt
        have suit : ∀ j ∈ jobs, j.Suits s := fun j member =>
          edited.suits (past j.draft (List.mem_map.mpr ⟨_, List.mem_map.mpr ⟨j, member, rfl⟩, rfl⟩))
        have further : Furthers env _ s _ := collectResults_furthers filed suit
        refine .inr ⟨_, further, List.forall_mem_nil _, fun q member => ?_, rfl⟩
        simpa [advance, Task.wave] using member
    | reload path => cases apt
    | parse => exact .inr ⟨[], .of_entries rfl, List.forall_mem_nil _, List.forall_mem_nil _, rfl⟩
    | _ => exact absurd rfl serving

end Tasks

section Growing

def Stuck (s : Session) : Prop :=
  ∃ id c, s.context? id = some c ∧ id ∉ s.enrolled ∧ ∀ task ∈ s.tasks, task.admits? ≠ some id

-- What the contexts are made of and what the parsed files include is promised, or waits to be claimed.
structure Grows (env : Environment) (lost : List Draft) (s : Session) : Prop where
  listed : s.enrolled.Nodup
  edited : s.Edited
  apt : ∀ task ∈ s.tasks, task.Apt env
  closed : Stuck s ∨ lost = [] ∧ (∀ id c, s.context? id = some c → ∀ p ∈ c.roots, p ∈ s.waits ∨ Promised env s p) ∧
    ∀ p f, s.fileAt? p = some f → ∀ q ∈ includesOf f, q ∈ s.waits ∨ Promised env s q

variable {lost : List Draft}

theorem Grows.step {named : List Bytes} (grows : Grows env lost s) (further : Furthers env named s t) (listed : t.enrolled.Nodup)
    (apt : ∀ task ∈ t.tasks, task.Apt env) (waits : ∀ q ∈ s.waits, q ∈ t.waits ∨ Promised env t q)
    (roots : ∀ id c, t.context? id = some c → ∀ p ∈ c.roots, p ∈ t.waits ∨ ∃ o, s.context? id = some o ∧ p ∈ o.roots)
    (stuck : Stuck s → Stuck t) (led : ∀ q ∈ named, q ∈ t.waits) : Grows env lost t := by
  have kept : ∀ q, q ∈ s.waits ∨ Promised env s q → q ∈ t.waits ∨ Promised env t q := by
    intro q before
    exact before.elim (waits q) fun promise => .inr (further.promised q promise)
  refine ⟨listed, further.edited grows.edited, apt, ?_⟩
  rcases grows.closed with before | ⟨none, rooted, closed⟩
  · exact .inl (stuck before)
  · refine .inr ⟨none, fun id c found p root => ?_, fun p f found q member => ?_⟩
    · rcases roots id c found p root with waiting | ⟨o, before, root⟩
      · exact .inl waiting
      · exact kept p (rooted id o before p root)
    · rcases further.files p f found with old | new
      · exact kept q (closed p f old q member)
      · exact .inl (led q (new q member))

theorem waits_cons (s : Session) (task : Task) :
    waits { s with tasks := task :: s.tasks } = task.wave ++ s.waits := List.flatMap_cons

theorem Grows.perm (grows : Grows env lost s) {tasks : List Task} (order : s.tasks.Perm tasks) :
    Grows env lost { s with tasks } := by
  have same : ∀ q, q ∈ s.waits ↔ q ∈ waits { s with tasks } := fun q => (order.flatMap_right Task.wave).mem_iff
  have stuck : Stuck s → Stuck { s with tasks } := fun ⟨id, c, found, out, free⟩ =>
    ⟨id, c, found, out, fun task member => free task (order.mem_iff.mpr member)⟩
  exact grows.step (.of_entries rfl) grows.listed (fun task member => grows.apt task (order.mem_iff.mpr member))
    (fun q waiting => .inl ((same q).mp waiting)) (fun id c found p root => .inr ⟨c, found, root⟩) stuck
    (List.forall_mem_nil _)

theorem context_of_roots {id : ContextId} {c : Context}
    (same : (t.context? id).map Context.roots = (s.context? id).map Context.roots) (found : t.context? id = some c) :
    ∃ o, s.context? id = some o ∧ o.roots = c.roots := by
  rw [found, Option.map_some] at same
  exact Option.map_eq_some_iff.mp same.symm

theorem mem_resume {task next : Task} (member : next ∈ (resume env s task).tasks) :
    (advance env s task).1 = some next ∨ next ∈ s.tasks ∨ ∃ i, next = .merge i := by
  rcases List.mem_append.mp member with new | old
  · exact .inl (Option.mem_toList.mp new)
  · rcases (advance_frame env s task).2.2 with same | ⟨i, more⟩
    · exact .inr (.inl (same ▸ old))
    · rw [more] at old
      exact .inr ((List.mem_append.mp old).imp_right fun merge => ⟨i, List.mem_singleton.mp merge⟩)

theorem resume_stuck {task : Task} (proper : task.proper = true) (apt : task.Apt env)
    (stuck : Stuck { s with tasks := task :: s.tasks }) : Stuck (resume env s task) := by
  obtain ⟨id, c, found, out, free⟩ := stuck
  obtain ⟨roots, enrolls⟩ := advance_contexts env s task
  obtain ⟨o, there, -⟩ := context_of_roots (roots id).symm found
  refine ⟨id, o, there, ?_, fun next member admits => ?_⟩
  · intro member
    rcases enrolls with same | ⟨i, rfl, more⟩
    · exact out (same ▸ member)
    · change id ∈ (advance env s (.enroll i)).2.enrolled at member
      rw [more] at member
      rcases List.mem_append.mp member with old | new
      · exact out old
      · cases List.mem_singleton.mp new
        exact free _ List.mem_cons_self rfl
  · rcases mem_resume member with new | old | ⟨i, rfl⟩
    · exact free task List.mem_cons_self ((advance_apt env s proper apt new).2 id admits)
    · exact free next (List.mem_cons_of_mem _ old) admits
    · cases admits

-- The context whose roots could not be read had no other task to open it.
theorem failed_stuck {task : Task} (held : Held { s with tasks := task :: s.tasks })
    (fails : task.Fails (advance env s task).1) : Stuck (resume env s task) := by
  obtain ⟨filing, id, after, opens, next, shut⟩ := fails
  obtain ⟨entries, last, pending, frame⟩ := advance_files env s filing
  have opening : ((task :: s.tasks).filterMap Task.opens?).Nodup := held.opening
  rw [List.filterMap_cons, opens] at opening
  obtain ⟨out, c, found, -⟩ := held.unopened id (List.mem_filterMap.mpr ⟨task, List.mem_cons_self, opens⟩)
  rw [resume, next, frame]
  refine ⟨id, c, found, out, fun task member admits => ?_⟩
  rcases List.mem_cons.mp member with rfl | old
  · rw [shut] at admits
    cases admits
  · exact (List.nodup_cons.mp opening).1 (List.mem_filterMap.mpr ⟨task, old, opens_of_admits admits⟩)

theorem resume_grows {task : Task} (filed : Filed s.entries s.lastSerial) (held : Held { s with tasks := task :: s.tasks })
    (past : ∀ d ∈ task.drafts, ∀ e ∈ s.entries, e.live = true → d.serial = e.serial →
      d.path = e.path ∧ d.generation ≤ e.generation)
    (grows : Grows env lost { s with tasks := task :: s.tasks }) : Grows env (task.losses env ++ lost) (resume env s task) := by
  have proper : task.proper = true := held.proper task List.mem_cons_self
  have apt : task.Apt env := grows.apt task List.mem_cons_self
  obtain ⟨roots, enrolls⟩ := advance_contexts env s task
  have listed : (resume env s task).enrolled.Nodup := by
    rcases enrolls with same | ⟨i, rfl, more⟩
    · exact same ▸ grows.listed
    · have out := (held.unopened i (List.mem_filterMap.mpr ⟨_, List.mem_cons_self, rfl⟩)).1
      change (advance env s (.enroll i)).2.enrolled.Nodup
      rw [more, ← List.concat_eq_append]
      exact grows.listed.concat out
  have apts : ∀ next ∈ (resume env s task).tasks, next.Apt env := by
    intro next member
    rcases mem_resume member with new | old | ⟨i, rfl⟩
    · exact (advance_apt env s proper apt new).1
    · exact grows.apt next (List.mem_cons_of_mem _ old)
    · trivial
  rcases advance_furthers filed apt grows.edited past with ⟨fails, edited⟩ | ⟨named, further, claimed, led, kept⟩
  · exact ⟨listed, edited, apts, .inl (failed_stuck held fails)⟩
  have goes : Furthers env named { s with tasks := task :: s.tasks } (resume env s task) :=
    ⟨further.promised, further.files, further.edited⟩
  have waits : ∀ q ∈ s.waits, q ∈ (resume env s task).waits := by
    intro q waiting
    refine List.mem_flatMap.mpr ?_
    obtain ⟨other, member, there⟩ := List.mem_flatMap.mp waiting
    refine ⟨other, List.mem_append_right _ ?_, there⟩
    rcases (advance_frame env s task).2.2 with same | ⟨i, more⟩
    · rw [same]
      exact member
    · rw [more]
      exact List.mem_append_left _ member
  rw [kept]
  refine grows.step goes listed apts ?_ ?_ (resume_stuck proper apt) ?_
  · intro q waiting
    rw [waits_cons] at waiting
    rcases List.mem_append.mp waiting with mine | others
    · exact .inr (claimed q mine)
    · exact .inl (waits q others)
  · intro id c found p root
    obtain ⟨o, there, same⟩ := context_of_roots (roots id) found
    exact .inr ⟨o, there, same ▸ root⟩
  · intro q member
    obtain ⟨next, new, there⟩ := List.mem_flatMap.mp (led q member)
    exact List.mem_flatMap.mpr ⟨next, List.mem_append_left _ new, there⟩

theorem change_tasks (s : Session) (path text : Bytes) : (s.change path text).tasks = s.tasks := by
  obtain ⟨entries, last, pending, frame⟩ := ensureEntry_files s path
  have tasks : (s.ensureEntry path).2.tasks = s.tasks := by rw [frame]
  rw [← tasks]
  simp only [change]
  split <;> rfl

theorem change_grows (sound : Sound s) (grows : Grows env lost s) (path text : Bytes) :
    Grows env lost (s.change path text) := by
  obtain ⟨contexts, enrolled, -⟩ := change_busy sound.tended path text
  have tasks := change_tasks s path text
  have same : ∀ id, (s.change path text).context? id = s.context? id := fun id => by rw [context?, contexts, context?]
  refine grows.step (change_furthers s path text) (enrolled ▸ grows.listed) (tasks ▸ grows.apt) ?_ ?_ ?_
    (List.forall_mem_nil _)
  · intro q waiting
    rw [waits, tasks]
    exact .inl waiting
  · intro id c found p root
    exact .inr ⟨c, same id ▸ found, root⟩
  · rintro ⟨id, c, found, out, free⟩
    exact ⟨id, c, (same id).trans found, enrolled ▸ out, tasks ▸ free⟩

theorem openContext_grows (grows : Grows env lost s) (name base : Bytes) (overlays : List Bytes) :
    Grows env lost (s.openContext name base overlays).2 := by
  have contexts := context_openContext (s := s) name base overlays
  have waits : (s.openContext name base overlays).2.waits = s.waits ++ (base :: overlays) := by
    simp [Session.waits, openContext, addPending, Task.wave, Context.roots]
  refine grows.step (.of_entries rfl) grows.listed ?_ ?_ ?_ ?_ (List.forall_mem_nil _)
  · intro task member
    rcases List.mem_append.mp member with old | new
    · exact grows.apt task old
    · cases List.mem_singleton.mp new
      exact fun _ => ⟨_, rfl⟩
  · intro q waiting
    rw [waits]
    exact .inl (List.mem_append_left _ waiting)
  · intro id c found p root
    rw [contexts] at found
    split at found
    · cases Option.some.inj found
      rw [waits]
      exact .inl (List.mem_append_right _ root)
    · exact .inr ⟨c, found, root⟩
  · rintro ⟨id, c, found, out, free⟩
    have older : id ≠ s.contexts.size := Nat.ne_of_lt (Array.getElem?_eq_some_iff.mp found).1
    refine ⟨id, c, (contexts id).trans ((if_neg older).trans found), out, fun task member admits => ?_⟩
    rcases List.mem_append.mp member with old | new
    · exact free task old admits
    · cases List.mem_singleton.mp new
      exact older (Option.some.inj admits).symm

theorem grown_grows (grown : Grown env s) : ∃ calls lost, Ran calls lost s ∧ Grows env lost s := by
  induction grown with
  | start => exact ⟨_, _, .start, List.nodup_nil, nofun, nofun, .inr ⟨rfl, nofun, nofun⟩⟩
  | @step s t a before adds step ih =>
    obtain ⟨calls, lost, ran, ih⟩ := ih
    have sound := ran_sound ran
    cases a with
    | call c =>
      obtain ⟨running, rfl⟩ := act_call_iff.mp step
      refine ⟨_, _, .call c running ran, ?_⟩
      cases c with
      | change path text => exact change_grows sound ih path text
      | openContext name base overlays => exact openContext_grows ih name base overlays
      | close | remove | loadBindings => cases adds
    | work k =>
      refine ⟨_, _, .work env k ran step, ?_⟩
      obtain ⟨-, task, present, rfl⟩ := act_work_iff.mp step
      have order := pick_perm present
      have losing : losses env s (.work k) = task.losses env := by simp [losses, present]
      rw [losing]
      refine resume_grows (s := { s with tasks := s.tasks.eraseIdx k }) sound.tended.filed (sound.held.perm order) ?_
        (ih.perm order)
      intro d drawn e member alive mine
      have due : d ∈ s.drafts := List.mem_flatMap.mpr ⟨task, order.mem_iff.mpr List.mem_cons_self, drawn⟩
      exact ((ran_minds ran).attended.minded e member alive).past d due mine
    | fire k =>
      refine ⟨_, _, .fire env k ran step, ?_⟩
      obtain ⟨-, u, present, rfl⟩ := act_fire_iff.mp step
      refine ih.step (.of_entries rfl) ih.listed ?_ ?_ (fun id c found p root => .inr ⟨c, found, root⟩) ?_
        (List.forall_mem_nil _)
      · intro task member
        rcases List.mem_append.mp member with old | new
        · exact ih.apt task old
        · cases List.mem_singleton.mp new
          trivial
      · intro q waiting
        refine .inl ?_
        simp only [waits, List.flatMap_append]
        exact List.mem_append_left _ waiting
      · rintro ⟨id, c, found, out, free⟩
        refine ⟨id, c, found, out, fun task member admits => ?_⟩
        rcases List.mem_append.mp member with old | new
        · exact free task old admits
        · cases List.mem_singleton.mp new
          cases admits

end Growing

def Supplied (env : Environment) (table : Bytes → Option File) (p : Bytes) : Prop :=
  (table p).isSome = true ∨ onDisk env p = none

-- Nothing is left to do, and no file is missing that could be read.
structure Complete (env : Environment) (s : Session) : Prop where
  sound : Sound s
  tasks : s.tasks = []
  armed : s.armed = []
  clean : ∀ id c, s.context? id = some c → c.dirty = false ∧ c.merging = false
  listed : s.enrolled.Nodup
  idle : ∀ p e, s.entry? p = some e → e.state ≠ .parsing
  parsed : ∀ p f, s.fileAt? p = some f → IsParsed p f
  typed : ∀ p, (s.openText? p).isSome = true → (s.fileAt? p).isSome = true
  rooted : ∀ id c, s.context? id = some c → ∀ p ∈ c.roots, Supplied env s.fileAt? p
  closed : ∀ p f, s.fileAt? p = some f → ∀ q ∈ includesOf f, Supplied env s.fileAt? q

theorem Complete.running (complete : Complete env s) : s.crash = none := complete.sound.stuck complete.tasks

namespace Grown

theorem parsed (grown : Grown env s) : ∀ e ∈ s.entries, e.live = true → ∀ f, e.parsed = some f → IsParsed e.path f := by
  induction grown with
  | start => exact nofun
  | @step s t a before adds step ih =>
    obtain ⟨calls, lost, ran, -⟩ := grown_grows before
    have minds := ran_minds ran
    intro e member alive f stored
    rcases (act_descends (ran_sound ran).tended.filed step).entries e member with ⟨o, present, succeeds⟩ | ⟨-, none⟩
    · rw [succeeds.path]
      rcases succeeds.parsed f stored with old | ⟨d, ⟨task, there, brings⟩, serial, -⟩
      · exact ih o present (succeeds.live alive) f old
      · obtain ⟨text, ⟨source, dirs, made⟩, -⟩ := brings.parse (minds.honest task there)
        have due : d ∈ s.drafts := List.mem_flatMap.mpr ⟨task, there, brings.drafted⟩
        obtain ⟨located, -⟩ :=
          (minds.attended.minded o present (succeeds.live alive)).past d due (serial.trans succeeds.serial)
        exact ⟨source, dirs, text, located ▸ made⟩
    · rw [none] at stored
      cases stored

theorem clean (grown : Grown env s) (sound : Sound s) (tasks : s.tasks = []) (pending : s.pending = 0)
    (opened : ∀ id c, s.context? id = some c → id ∈ s.enrolled) :
    ∀ id c, s.context? id = some c → c.dirty = false ∧ c.merging = false := by
  intro id c found
  constructor
  · cases dirty : c.dirty with
    | false => rfl
    | true =>
      have marked : s.isDirty id = true := by simp [isDirty, found, dirty]
      rcases (dirty_iff_forsaken grown.reached pending id (opened id c found)).2 marked with left | ⟨path, reload⟩
      · cases left
      · rw [tasks] at reload
        cases reload
  · have loops := sound.held.loops id
    rw [tasks] at loops
    cases merging : c.merging with
    | false => rfl
    | true => simp [isMerging, found, merging] at loops

theorem complete (grown : Grown env s) (tasks : s.tasks = []) (armed : s.armed = [])
    (opened : ∀ id c, s.context? id = some c → id ∈ s.enrolled) : Complete env s := by
  obtain ⟨calls, lost, ran, grows⟩ := grown_grows grown
  have sound := ran_sound ran
  obtain ⟨rfl, rooted, closed⟩ := grows.closed.resolve_left fun ⟨id, c, found, out, _⟩ => out (opened id c found)
  have duties : s.duties = [] := by
    rw [Session.duties, tasks, armed]
    rfl
  have pending : s.pending = 0 := by
    rw [sound.held.balance, tasks, armed]
    rfl
  have idle : ∀ p e, s.entry? p = some e → e.state ≠ .parsing := by
    intro p e found parsing
    obtain ⟨present, alive, -⟩ := entry_mem found
    have calm := calm_of_sound sound duties e present alive
    simp [Entry.isBusy, parsing] at calm
  have typed : ∀ p, (s.openText? p).isSome = true → (s.fileAt? p).isSome = true := by
    intro p shown
    obtain ⟨text, shown⟩ := Option.isSome_iff_exists.mp shown
    obtain ⟨e, found, told⟩ := Option.bind_eq_some_iff.mp shown
    obtain ⟨present, alive, located⟩ := entry_mem found
    have text := ((ran_minds ran).attended.minded e present alive).shown
    rw [told, located] at text
    obtain ⟨o, there, ⟨f, stored, -⟩ | ⟨-, lost⟩⟩ := parsed_of_idle ran pending text
    · rw [fileAt_entry there, stored]
      rfl
    · cases lost
  have supplied : ∀ q, q ∈ s.waits ∨ Promised env s q → Supplied env s.fileAt? q := by
    intro q promise
    rcases promise with waiting | unread | ⟨e, found, parsed | shown | parsing⟩
    · rw [waits, tasks] at waiting
      cases waiting
    · exact .inr unread
    · exact .inl (fileAt_entry found ▸ parsed)
    · refine .inl (typed q ?_)
      simp [openText?, found, shown]
    · exact absurd parsing (idle q e found)
  refine ⟨sound, tasks, armed, grown.clean sound tasks pending opened, grows.listed, idle, ?_, typed, ?_, ?_⟩
  · intro p f found
    obtain ⟨e, there, stored⟩ := Option.bind_eq_some_iff.mp found
    obtain ⟨present, alive, rfl⟩ := entry_mem there
    exact grown.parsed e present alive f stored
  · exact fun id c found p root => supplied p (rooted id c found p root)
  · exact fun p f found q member => supplied q (closed p f found q member)

end Grown

end DeviceTree.Session
