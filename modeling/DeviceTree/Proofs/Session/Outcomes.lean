import DeviceTree.Proofs.Session.Rounds

namespace DeviceTree.Session

variable {env : Environment} {s t : Session}

theorem uses_iff {id : ContextId} {p : Bytes} : s.uses id p = true ↔ ∃ c, s.context? id = some c ∧ p ∈ c.deps := by
  unfold uses
  cases s.context? id with
  | none => simp
  | some c => simp

theorem isUsed_iff {p : Bytes} :
    s.isUsed p = true ↔ ∃ id ∈ s.enrolled, ∃ c, s.context? id = some c ∧ p ∈ c.deps := by
  unfold isUsed
  rw [List.any_eq_true]
  exact exists_congr fun id => and_congr_right fun _ => uses_iff

theorem unused_apart {path : Bytes} (unused : s.isUsed path = false) : ∀ id ∈ s.enrolled, s.uses id path = false := by
  intro id member
  by_contra uses
  rw [Bool.not_eq_false] at uses
  rw [isUsed, List.any_eq_true.mpr ⟨id, member, uses⟩] at unused
  cases unused

theorem isUsed_kept (kept : ∀ id ∈ s.enrolled, id ∈ t.enrolled ∧ t.context? id = s.context? id) {p : Bytes}
    (used : s.isUsed p = true) : t.isUsed p = true := by
  obtain ⟨id, member, c, found, there⟩ := isUsed_iff.mp used
  exact isUsed_iff.mpr ⟨id, (kept id member).1, c, (kept id member).2.trans found, there⟩

theorem AtRest.knows (rest : AtRest s) {p : Bytes} (used : s.isUsed p = true) : s.Knows p := by
  obtain ⟨id, member, c, found, there⟩ := isUsed_iff.mp used
  exact (rest.depends id member c found).known p there

inductive Outcome (env : Environment) (s t : Session) : Call → Prop where
  | changed {path text : Bytes}
      (gains : Gains env (Function.update s.openText? path (some text))
        (Function.update s.fileAt? path (some (File.ofText env.source env.includeDirs path text)))
        (fun p => s.Knows p ∨ p = path)
        (Comes (Function.update s.fileAt? path (some (File.ofText env.source env.includeDirs path text)))
          (freshOf env (Function.update s.openText? path (some text)))
          (includesOf (File.ofText env.source env.includeDirs path text))) t)
      (revises : Revises s (s.dependentsOf path) t) (bindings : t.bindings = s.bindings) : Outcome env s t (.change path text)
  | reread {path : Bytes} (used : s.isUsed path = true)
      (gains : Gains env (Function.update s.openText? path none) (Function.update s.fileAt? path none) s.Knows
        (Comes (Function.update s.fileAt? path none) (freshOf env (Function.update s.openText? path none)) [path]) t)
      (revises : Revises s (s.dependentsOf path) t) (bindings : t.bindings = s.bindings) : Outcome env s t (.close path)
  | dropped {path : Bytes} (unused : s.isUsed path = false)
      (gains : Gains env (Function.update s.openText? path none) (Function.update s.fileAt? path none)
        (fun p => s.Knows p ∧ p ≠ path) (fun _ => False) t)
      (revises : Revises s [] t) (bindings : t.bindings = s.bindings) : Outcome env s t (.close path)
  | opened {name base : Bytes} {overlays : List Bytes}
      (readable : ∀ p ∈ base :: overlays, s.fileAt? p = none → (freshOf env s.openText? p).isSome = true)
      (gains : Gains env s.openText? s.fileAt? s.Knows (Comes s.fileAt? (freshOf env s.openText?) (base :: overlays)) t)
      (enrolled : t.enrolled = s.enrolled ++ [s.contexts.size])
      (contexts : ∀ id, t.context? id =
        if id = s.contexts.size then some ((Context.opening name base overlays).renewed t) else s.context? id)
      (passes : (Context.opening name base overlays).Passes t) (current : t.current = s.current)
      (bindings : t.bindings = s.bindings) : Outcome env s t (.openContext name base overlays)
  | refused {name base : Bytes} {overlays : List Bytes}
      (unreadable : ∃ p ∈ base :: overlays, s.fileAt? p = none ∧ freshOf env s.openText? p = none)
      (gains : Gains env s.openText? s.fileAt? (fun p => s.Knows p ∨ p ∈ base :: overlays)
        (fun p => p ∈ base :: overlays ∧ ¬ GivesUp env (.openContext s.contexts.size) s.fileAt? (freshOf env s.openText?)
          (base :: overlays) p) t)
      (enrolled : t.enrolled = s.enrolled)
      (contexts : ∃ failure, ∀ id, t.context? id =
        if id = s.contexts.size then some { Context.opening name base overlays with failure := some failure }
        else s.context? id)
      (current : t.current = s.current) (bindings : t.bindings = s.bindings) (events : t.events = s.events) :
      Outcome env s t (.openContext name base overlays)
  | removed {id : ContextId} {c : Context} (member : id ∈ s.enrolled) (found : s.context? id = some c)
      (gains : Gains env s.openText?
        (fun p => if p ∈ c.deps ∧ s.openText? p = none ∧ t.isUsed p = false then none else s.fileAt? p)
        (fun p => s.Knows p ∧ ¬ (p ∈ c.deps ∧ s.openText? p = none ∧ t.isUsed p = false)) (fun _ => False) t)
      (enrolled : t.enrolled = s.enrolled.filter (· != id))
      (contexts : ∀ j, t.context? j = if id = j then some { c with removed := true } else s.context? j)
      (current : t.current = if s.current = some id then none else s.current) (bindings : t.bindings = s.bindings) :
      Outcome env s t (.remove id)
  | kept {id : ContextId} (absent : id ∉ s.enrolled) (same : t = s) : Outcome env s t (.remove id)
  | bound {paths : List Bytes} (gains : Gains env s.openText? s.fileAt? s.Knows (fun _ => False) t)
      (revises : Revises s s.enrolled t) (bindings : t.bindings = some (Loader.load env.source .empty paths).catalog) :
      Outcome env s t (.loadBindings paths)

theorem not_readable {loaded fresh : Bytes → Option File} {roots : List Bytes}
    (unreadable : ∃ p ∈ roots, loaded p = none ∧ fresh p = none) :
    ¬ ∀ p ∈ roots, loaded p = none → (fresh p).isSome = true := by
  obtain ⟨p, root, absent, fails⟩ := unreadable
  intro readable
  have reads := readable p root absent
  rw [fails] at reads
  cases reads

theorem gained_none (files fresh : Bytes → Option File) (p : Bytes) : gained files fresh (fun _ => False) p = files p := by
  simp [gained]

theorem drops_gains (env : Environment) {gone : Bytes → Prop} [DecidablePred gone]
    (drops : ∀ p, t.entry? p = if gone p then none else s.entry? p) :
    Gains env (fun p => if gone p then none else s.openText? p) (fun p => if gone p then none else s.fileAt? p)
      (fun p => s.Knows p ∧ ¬ gone p) (fun _ => False) t where
  texts p := by
    rw [openText?, drops]
    split <;> rfl
  files p := by
    rw [gained_none, fileAt?, drops]
    split <;> rfl
  known p := by
    rw [knows_iff, drops, knows_iff, or_false]
    by_cases dropped : gone p <;> simp [dropped]

theorem revises_nothing (enrolled : t.enrolled = s.enrolled) (current : t.current = s.current)
    (contexts : t.contexts = s.contexts) : Revises s [] t where
  enrolled := enrolled
  current := current
  contexts id := by rw [if_neg List.not_mem_nil, context?, contexts, context?]
  passes := nofun

-- In whatever order its work is done, a call has its outcome.
theorem call_works {c : Call} (rest : AtRest s) (works : Works env (c.apply s) t) (tasks : t.tasks = []) (armed : t.armed = []) :
    Outcome env s t c := by
  cases c with
  | change path text =>
    obtain ⟨gains, revises, bindings⟩ := change_works rest works tasks armed
    exact .changed gains revises bindings
  | close path =>
    cases used : s.isUsed path with
    | true =>
      obtain ⟨gains, revises, bindings⟩ := close_works rest used (rest.knows used) works tasks
      exact .reread used gains revises bindings
    | false =>
      obtain ⟨drops, entries, timer, pending, equal⟩ := close_drops rest used
      change Works env (s.close path) t at works
      rw [equal] at works drops
      cases works_idle works rest.tasks rest.armed
      refine .dropped used ?_ (revises_nothing rfl rfl rfl) rfl
      have words : Function.update s.openText? path none = fun p => if p = path then none else s.openText? p :=
        funext (Function.update_apply s.openText? path none)
      have table : Function.update s.fileAt? path none = fun p => if p = path then none else s.fileAt? p :=
        funext (Function.update_apply s.fileAt? path none)
      rw [words, table]
      exact drops_gains env drops
  | openContext name base overlays =>
    rcases open_works rest works tasks with ⟨readable, gains, enrolled, contexts, passes, current, bindings⟩ |
      ⟨unreadable, gains, enrolled, contexts, current, bindings, events⟩
    · exact .opened readable gains enrolled contexts passes current bindings
    · exact .refused unreadable gains enrolled contexts current bindings events
  | remove id =>
    by_cases member : id ∈ s.enrolled
    · obtain ⟨c, entries, timer, events, found, equal, drops⟩ := remove_drops rest member
      change Works env (s.remove id) t at works
      rw [equal] at works drops
      cases works_idle works rest.tasks rest.armed
      have gains := drops_gains env drops
      refine .removed member found ?_ rfl (fun j => ?_) rfl rfl
      · have words : (fun p => if p ∈ c.deps ∧ s.openText? p = none ∧ (s.strike id).isUsed p = false then none
            else s.openText? p) = s.openText? := by
          funext p
          split
          · rename_i gone
            exact gone.2.1.symm
          · rfl
        rw [words] at gains
        exact gains
      · refine (context_updateContext s id j _).trans ?_
        split
        · rename_i mine
          rw [← mine, found]
          rfl
        · rfl
    · change Works env (s.remove id) t at works
      rw [remove_absent member] at works
      exact .kept member (works_idle works rest.tasks rest.armed)
  | loadBindings paths =>
    obtain ⟨entries, revises, bindings⟩ := bindings_works rest works tasks
    refine .bound ⟨openText_frame entries, fun p => ?_, fun p => ?_⟩ revises bindings
    · rw [gained_none]
      exact fileAt_frame entries p
    · rw [or_false]
      exact knows_frame entries p

-- What rests again: each open context either was kept with the files it uses, or was merged just now.
theorem Gains.rests {words : Bytes → Option Bytes} {table : Bytes → Option File} {names done : Bytes → Prop}
    (gains : Gains env words table names done t) (sound : Sound t) (tasks : t.tasks = []) (armed : t.armed = [])
    (clean : ∀ id c, t.context? id = some c → c.dirty = false ∧ c.merging = false) (listed : t.enrolled.Nodup)
    (parsed : ∀ p f, table p = some f → IsParsed p f) (typed : ∀ p, (words p).isSome = true → (table p).isSome = true)
    (contexts : ∀ id ∈ t.enrolled, ∀ c, t.context? id = some c →
      (c.Depends s ∧ ∀ p ∈ c.deps, names p ∧ ∀ f, s.fileAt? p = some f → table p = some f) ∨
        ∃ o : Context, c = o.renewed t ∧ ∀ p ∈ o.roots, names p ∨ done p) : AtRest t := by
  have files : ∀ p f, t.fileAt? p = some f → IsParsed p f := by
    intro p f found
    rw [gains.files] at found
    rcases gained_some.mp found with there | ⟨-, -, read⟩
    · exact parsed p f there
    · exact freshOf_parsed read
  refine ⟨sound, tasks, armed, clean, listed, files, fun p opened => ?_, fun id member c found => ?_⟩
  · rw [gains.texts] at opened
    obtain ⟨f, there⟩ := Option.isSome_iff_exists.mp (typed p opened)
    rw [gains.files, gained_keeps there]
    rfl
  · rcases contexts id member c found with ⟨depends, kept⟩ | ⟨o, rfl, roots⟩
    · refine depends.mono (fun p there => (gains.known p).mpr (.inl (kept p there).1)) fun p there f loaded => ?_
      rw [gains.files]
      exact gained_keeps ((kept p there).2 f loaded)
    · exact renewed_depends sound.tended.filed files fun p root => (gains.known p).mpr (roots p root)

theorem Revises.clean {ids : List ContextId} (revises : Revises s ids t) (rest : AtRest s) :
    ∀ id c, t.context? id = some c → c.dirty = false ∧ c.merging = false := by
  intro id c found
  rw [revises.contexts] at found
  split at found
  · obtain ⟨o, there, rfl⟩ := Option.map_eq_some_iff.mp found
    exact rest.clean id o there
  · exact rest.clean id c found

theorem Gains.revised {words : Bytes → Option Bytes} {table : Bytes → Option File} {names done : Bytes → Prop}
    {ids : List ContextId} (gains : Gains env words table names done t) (rest : AtRest s) (sound : Sound t)
    (tasks : t.tasks = []) (armed : t.armed = []) (revises : Revises s ids t)
    (parsed : ∀ p f, table p = some f → IsParsed p f) (typed : ∀ p, (words p).isSome = true → (table p).isSome = true)
    (known : ∀ p, s.isUsed p = true → names p)
    (apart : ∀ id ∈ s.enrolled, id ∉ ids → ∀ c, s.context? id = some c → ∀ p ∈ c.deps, ∀ f, s.fileAt? p = some f →
      table p = some f) : AtRest t := by
  have used : ∀ id ∈ s.enrolled, ∀ c, s.context? id = some c → ∀ p ∈ c.deps, names p :=
    fun id member c found p there => known p (isUsed_iff.mpr ⟨id, member, c, found, there⟩)
  refine gains.rests (s := s) sound tasks armed (revises.clean rest) (revises.enrolled ▸ rest.listed) parsed typed
    fun id member c found => ?_
  rw [revises.enrolled] at member
  rw [revises.contexts] at found
  split at found
  · obtain ⟨o, there, rfl⟩ := Option.map_eq_some_iff.mp found
    exact .inr ⟨o, rfl, fun p root => .inl (used id member o there p ((rest.depends id member o there).roots p root))⟩
  · rename_i kept
    exact .inl ⟨rest.depends id member c found, fun p there =>
      ⟨used id member c found p there, apart id member kept c found p there⟩⟩

theorem update_parsed {path : Bytes} {f? : Option File} (rest : AtRest s) (made : ∀ f, f? = some f → IsParsed path f) :
    ∀ p f, Function.update s.fileAt? path f? p = some f → IsParsed p f := by
  intro p f found
  rw [Function.update_apply] at found
  split at found
  · rename_i mine
    exact mine ▸ made f found
  · exact rest.parsed p f found

theorem update_typed {path : Bytes} {text? : Option Bytes} {f? : Option File} (rest : AtRest s)
    (made : text?.isSome = true → f?.isSome = true) :
    ∀ p, (Function.update s.openText? path text? p).isSome = true → (Function.update s.fileAt? path f? p).isSome = true := by
  intro p
  rw [Function.update_apply, Function.update_apply]
  split
  · exact made
  · exact rest.typed p

theorem update_apart {path : Bytes} {f? : Option File} (id : ContextId)
    (apart : s.uses id path = false) (c : Context) (found : s.context? id = some c) (p : Bytes) (there : p ∈ c.deps) (f : File)
    (loaded : s.fileAt? p = some f) : Function.update s.fileAt? path f? p = some f := by
  rw [Function.update_of_ne, loaded]
  rintro rfl
  rw [uses_iff.mpr ⟨c, found, there⟩] at apart
  cases apart

theorem AtRest.bounded (rest : AtRest s) {id : ContextId} (member : id ∈ s.enrolled) : id < s.contexts.size := by
  obtain ⟨c, found, -⟩ := rest.sound.held.enrolled id member
  exact (Array.getElem?_eq_some_iff.mp found).1

theorem AtRest.enrolls (rest : AtRest s) : (s.enrolled ++ [s.contexts.size]).Nodup := by
  rw [List.nodup_append]
  refine ⟨rest.listed, List.nodup_singleton _, fun id old j new => ?_⟩
  rw [List.mem_singleton.mp new]
  exact Nat.ne_of_lt (rest.bounded old)

theorem Outcome.rests {c : Call} (outcome : Outcome env s t c) (rest : AtRest s) (sound : Sound t) (tasks : t.tasks = [])
    (armed : t.armed = []) : AtRest t := by
  cases outcome with
  | @changed path text gains revises =>
    refine gains.revised rest sound tasks armed revises (update_parsed rest ?_) (update_typed rest fun _ => rfl)
      (fun p used => .inl (rest.knows used)) fun id member unlisted => update_apart id (uses_of_not_dependent member unlisted)
    rintro f ⟨⟩
    exact ⟨_, _, text, rfl⟩
  | @reread path used gains revises =>
    exact gains.revised rest sound tasks armed revises (update_parsed rest nofun) (update_typed rest nofun)
      (fun p used => rest.knows used) fun id member unlisted => update_apart id (uses_of_not_dependent member unlisted)
  | @dropped path unused gains revises =>
    have nowhere := unused_apart unused
    refine gains.revised rest sound tasks armed revises (update_parsed rest nofun) (update_typed rest nofun)
      (fun p used => ⟨rest.knows used, ?_⟩) fun id member _ => update_apart id (nowhere id member)
    rintro rfl
    rw [unused] at used
    cases used
  | @opened name base overlays readable gains enrolled contexts passes =>
    refine gains.rests (s := s) sound tasks armed (rest.cleans contexts ⟨rfl, rfl⟩) (enrolled ▸ rest.enrolls) rest.parsed
      rest.typed fun id member c found => ?_
    rw [contexts] at found
    split at found
    · cases Option.some.inj found
      exact .inr ⟨_, rfl, fun p root => .inr (.named root)⟩
    · rename_i older
      rw [enrolled] at member
      have old := (List.mem_append.mp member).resolve_right (mt List.mem_singleton.mp older)
      have depends := rest.depends id old c found
      exact .inl ⟨depends, fun p there => ⟨depends.known p there, fun _ loaded => loaded⟩⟩
  | @refused name base overlays unreadable gains enrolled contexts =>
    obtain ⟨failure, contexts⟩ := contexts
    refine gains.rests (s := s) sound tasks armed (rest.cleans contexts ⟨rfl, rfl⟩) (enrolled ▸ rest.listed) rest.parsed
      rest.typed fun id member c found => ?_
    rw [enrolled] at member
    rw [contexts, if_neg (Nat.ne_of_lt (rest.bounded member))] at found
    have depends := rest.depends id member c found
    exact .inl ⟨depends, fun p there => ⟨.inl (depends.known p there), fun _ loaded => loaded⟩⟩
  | @removed id c member found gains enrolled contexts =>
    refine gains.rests (s := s) sound tasks armed (fun j o there => ?_) (enrolled ▸ rest.listed.filter _) (fun p f there => ?_)
      (fun p opened => ?_) fun j listed o there => ?_
    · rw [contexts] at there
      split at there
      · cases Option.some.inj there
        exact rest.clean id c found
      · exact rest.clean j o there
    · split at there
      · cases there
      · exact rest.parsed p f there
    · rw [if_neg]
      · exact rest.typed p opened
      · rintro ⟨-, closed, -⟩
        rw [closed] at opened
        cases opened
    · -- What a remaining context uses is kept.
      have stays : ∀ p ∈ o.deps, ¬ (p ∈ c.deps ∧ s.openText? p = none ∧ t.isUsed p = false) := by
        rintro p inside ⟨-, -, unused⟩
        rw [isUsed_iff.mpr ⟨j, listed, o, there, inside⟩] at unused
        cases unused
      rw [enrolled] at listed
      obtain ⟨old, differ⟩ := List.mem_filter.mp listed
      rw [contexts, if_neg (by rintro rfl; simp at differ)] at there
      have depends := rest.depends j old o there
      exact .inl ⟨depends, fun p inside => ⟨⟨depends.known p inside, stays p inside⟩,
        fun f loaded => (if_neg (stays p inside)).trans loaded⟩⟩
  | kept absent same =>
    rw [same]
    exact rest
  | bound gains revises =>
    exact gains.revised rest sound tasks armed revises rest.parsed rest.typed (fun p used => rest.knows used)
      fun id member apart => absurd member apart

def Settles (env : Environment) (s : Session) (c : Call) (t : Session) : Prop :=
  Works env (c.apply s) t ∧ t.tasks = [] ∧ t.armed = []

theorem settles_settle {fuel : Nat} {c : Call}
    (ended : ((settle env fuel (c.apply s)).tasks.isEmpty && (settle env fuel (c.apply s)).armed.isEmpty) = true) :
    Settles env s c (settle env fuel (c.apply s)) := by
  rw [Bool.and_eq_true, List.isEmpty_iff, List.isEmpty_iff] at ended
  exact ⟨settle_works env fuel _, ended⟩

theorem settles_outcome {c : Call} (rest : AtRest s) (settles : Settles env s c t) : Outcome env s t c ∧ AtRest t := by
  obtain ⟨works, tasks, armed⟩ := settles
  have outcome := call_works rest works tasks armed
  exact ⟨outcome, outcome.rests rest (works_sound (apply_sound rest.sound c) works) tasks armed⟩

theorem empty_rests : AtRest empty where
  sound := empty_sound
  tasks := rfl
  armed := rfl
  clean := nofun
  listed := List.nodup_nil
  parsed := nofun
  typed := nofun
  depends := nofun

theorem setCurrent_eq (s : Session) (path : Bytes) : ∃ current, s.setCurrent path = { s with current := current } := by
  have moved : ∃ current, setCurrent.move s path = { s with current := current } := by
    unfold setCurrent.move
    split
    · exact ⟨_, rfl⟩
    · exact ⟨s.current, rfl⟩
  unfold setCurrent
  split
  · split
    · exact ⟨s.current, rfl⟩
    · exact moved
  · exact moved

theorem Sound.attend (sound : Sound s) (path : Bytes) : Sound (s.setCurrent path) := by
  obtain ⟨current, equal⟩ := setCurrent_eq s path
  rw [equal]
  exact ⟨sound.tended.frame rfl rfl rfl, ⟨sound.held.proper, sound.held.opening, sound.held.unopened, sound.held.enrolled,
    sound.held.loops, sound.held.balance⟩, sound.stuck⟩

theorem AtRest.attend (rest : AtRest s) (path : Bytes) : AtRest (s.setCurrent path) := by
  have sound := rest.sound.attend path
  obtain ⟨current, equal⟩ := setCurrent_eq s path
  rw [equal] at sound ⊢
  refine ⟨sound, rest.tasks, rest.armed, rest.clean, rest.listed, rest.parsed, rest.typed, fun id member c found => ?_⟩
  have depends := rest.depends id member c found
  exact depends.mono depends.known fun _ _ _ there => there

theorem setCurrent_current (s : Session) (path : Bytes) :
    (s.setCurrent path).current =
      if s.current.any (s.uses · path) then s.current else (s.contextFor? path).or s.current := by
  have moved : (setCurrent.move s path).current = (s.contextFor? path).or s.current := by
    unfold setCurrent.move
    cases s.contextFor? path <;> rfl
  unfold setCurrent
  cases current : s.current with
  | none => simpa [current] using moved
  | some id =>
    cases uses : s.uses id path with
    | true => simp [uses, current]
    | false => simpa [uses, current] using moved

structure Turn where
  env : Environment
  before : Session
  call : Call
  after : Session

-- The calls that led to a session, the last one first. Each found the session at rest; and at any time the editor may have
-- turned to another file.
inductive Rested : List Turn → Session → Prop where
  | start : Rested [] empty
  | turn {history : List Turn} {s t : Session} (env : Environment) (c : Call) (before : Rested history s)
      (settles : Settles env s c t) : Rested (⟨env, s, c, t⟩ :: history) t
  | attend {history : List Turn} {s : Session} (path : Bytes) (before : Rested history s) : Rested history (s.setCurrent path)

theorem contextFor_enrolled {path : Bytes} {id : ContextId} (found : s.contextFor? path = some id) :
    id ∈ s.enrolled ∧ s.uses id path = true :=
  ⟨List.mem_of_find?_eq_some found, List.find?_some (p := fun id => s.uses id path) found⟩

theorem Outcome.attends {c : Call} (outcome : Outcome env s t c) (attends : ∀ id, s.current = some id → id ∈ s.enrolled) :
    ∀ id, t.current = some id → id ∈ t.enrolled := by
  intro id current
  cases outcome with
  | changed _ revises => exact revises.enrolled ▸ attends id (revises.current ▸ current)
  | reread _ _ revises => exact revises.enrolled ▸ attends id (revises.current ▸ current)
  | dropped _ _ revises => exact revises.enrolled ▸ attends id (revises.current ▸ current)
  | opened _ _ enrolled _ _ same => exact enrolled ▸ List.mem_append_left _ (attends id (same ▸ current))
  | refused _ _ enrolled _ same => exact enrolled ▸ attends id (same ▸ current)
  | @removed gone _ _ _ _ enrolled _ same =>
    rw [same] at current
    split at current
    · cases current
    · rename_i other
      rw [enrolled, List.mem_filter, bne_iff_ne]
      refine ⟨attends id current, ?_⟩
      rintro rfl
      exact other current
  | kept _ same => exact same ▸ attends id (same ▸ current)
  | bound _ revises => exact revises.enrolled ▸ attends id (revises.current ▸ current)

theorem attend_enrolled (attends : ∀ id, s.current = some id → id ∈ s.enrolled) (path : Bytes) :
    ∀ id, (s.setCurrent path).current = some id → id ∈ (s.setCurrent path).enrolled := by
  intro id current
  obtain ⟨now, equal⟩ := setCurrent_eq s path
  have enrolled : (s.setCurrent path).enrolled = s.enrolled := by rw [equal]
  rw [enrolled]
  rw [setCurrent_current] at current
  split at current
  · exact attends id current
  · rcases Option.or_eq_some_iff.mp current with found | ⟨-, stays⟩
    · exact (contextFor_enrolled found).1
    · exact attends id stays

theorem Rested.rests {history : List Turn} (rested : Rested history s) :
    AtRest s ∧ ∀ id, s.current = some id → id ∈ s.enrolled := by
  induction rested with
  | start => exact ⟨empty_rests, nofun⟩
  | turn env c _ settles ih =>
    obtain ⟨outcome, rest⟩ := settles_outcome ih.1 settles
    exact ⟨rest, outcome.attends ih.2⟩
  | attend path _ ih => exact ⟨ih.1.attend path, attend_enrolled ih.2 path⟩

end DeviceTree.Session
