import DeviceTree.Proofs.Session.Rest

namespace DeviceTree.Session

variable {env : Environment} {b s t u : Session}

def recorded (s : Session) (failure : Option LoadError) : Goal → Session
  | .openContext id => s.updateContext id fun c => { c with failure }
  | .mergeDependents _ => s

-- Where no merge was put off, none is asked for after a load but those it was made for.
theorem onRetry_clean (clean : ∀ id c, s.context? id = some c → c.dirty = false ∧ c.merging = false)
    (failure : Option LoadError) (goal : Goal) :
    s.onRetry failure goal = (some (.request [] (afterLoad failure goal)), s.recorded failure goal) := by
  simp only [onRetry]
  rw [List.filter_eq_nil_iff.mpr]
  · cases goal <;> rfl
  · intro id _
    cases found : s.context? id with
    | none => simp
    | some c => simp [(clean id c found).1]

theorem resume_retry (clean : ∀ id c, s.context? id = some c → c.dirty = false ∧ c.merging = false)
    (failure : Option LoadError) (goal : Goal) :
    resume env { s with tasks := [] } (.retry failure goal) =
      { s.recorded failure goal with tasks := [.request [] (afterLoad failure goal)] } := by
  rw [resume, advance, onRetry_clean (s := { s with tasks := [] }) clean]
  cases goal <;> rfl

theorem retry_works {failure : Option LoadError} {goal : Goal} (sound : Sound s)
    (clean : ∀ id c, s.context? id = some c → c.dirty = false ∧ c.merging = false) (only : s.tasks = [.retry failure goal])
    (quiet : s.armed = []) (works : Works env s t) (ended : t.tasks = []) :
    Sound { s.recorded failure goal with tasks := [afterLoad failure goal] } ∧
      Works env { s.recorded failure goal with tasks := [afterLoad failure goal] } t := by
  obtain ⟨sound', works'⟩ := works_single sound only quiet works ended
  rw [resume_retry clean] at sound' works'
  have still : ({ s.recorded failure goal with tasks := [.request [] (afterLoad failure goal)] } : Session).armed = [] := by
    cases goal <;> exact quiet
  exact works_single sound' rfl still works' ended

theorem ask_works {ids : List ContextId} (sound : Sound s)
    (clean : ∀ id c, s.context? id = some c → c.dirty = false ∧ c.merging = false) (single : ids.Nodup)
    (listed : ∀ id ∈ ids, id ∈ s.enrolled) (only : s.tasks = [.request ids .release]) (quiet : s.armed = [])
    (works : Works env s t) (ended : t.tasks = []) : Renews s ids t := by
  refine request_works ⟨single, fun id member => ?_, calm_of_sound sound ?_⟩ only quiet works ended
  · obtain ⟨c, found, stays⟩ := sound.held.enrolled id (listed id member)
    exact ⟨c, found, stays, clean id c found⟩
  · rw [duties, quiet, only]
    rfl

theorem mem_dependentsOf {path : Bytes} {id : ContextId} :
    id ∈ s.dependentsOf path ↔ id ∈ s.enrolled ∧ s.uses id path = true := List.mem_filter

theorem uses_of_not_dependent {path : Bytes} {id : ContextId} (member : id ∈ s.enrolled)
    (left : id ∉ s.dependentsOf path) : s.uses id path = false := by
  rw [mem_dependentsOf, not_and, Bool.not_eq_true] at left
  exact left member

theorem dependents_works {failure : Option LoadError} {path : Bytes} (sound : Sound s)
    (clean : ∀ id c, s.context? id = some c → c.dirty = false ∧ c.merging = false) (listed : s.enrolled.Nodup)
    (only : s.tasks = [.retry failure (.mergeDependents path)]) (quiet : s.armed = []) (works : Works env s t)
    (ended : t.tasks = []) : Renews s (s.dependentsOf path) t := by
  obtain ⟨sound₁, works₁⟩ := retry_works sound clean only quiet works ended
  obtain ⟨sound₂, works₂⟩ := works_single sound₁ rfl quiet works₁ ended
  have renews : Renews { s with tasks := [.request (s.dependentsOf path) .release] } (s.dependentsOf path) t :=
    ask_works sound₂ clean (listed.filter _) (fun id member => (mem_dependentsOf.mp member).1) rfl quiet works₂ ended
  exact ⟨renews.entries, renews.enrolled, renews.current, renews.bindings, renews.contexts, renews.passes, renews.silent⟩

theorem enroll_works {id : ContextId} (sound : Sound s)
    (clean : ∀ id c, s.context? id = some c → c.dirty = false ∧ c.merging = false) (only : s.tasks = [.enroll id])
    (quiet : s.armed = []) (works : Works env s t) (ended : t.tasks = []) :
    Renews { s with enrolled := s.enrolled ++ [id] } [id] t := by
  obtain ⟨sound', works'⟩ := works_single sound only quiet works ended
  have renews : Renews { s with enrolled := s.enrolled ++ [id], tasks := [.request [id] .release] } [id] t :=
    ask_works sound' clean (List.nodup_singleton id) (fun j member => List.mem_append_right _ member) rfl quiet works' ended
  exact ⟨renews.entries, renews.enrolled, renews.current, renews.bindings, renews.contexts, renews.passes, renews.silent⟩

theorem release_works (sound : Sound s) (only : s.tasks = [.release]) (quiet : s.armed = []) (works : Works env s t)
    (ended : t.tasks = []) : t = { s with tasks := [], pending := s.pending - 1 } := by
  obtain ⟨-, works'⟩ := works_single sound only quiet works ended
  exact works_idle works' rfl quiet

theorem resume_store {path : Bytes} {e : Entry} {f : File} (filed : Filed s.entries s.lastSerial)
    (found : s.entry? path = some e) :
    resume env { s with tasks := [] } (.store e.serial e.generation f) =
      { s.updateEntry e.serial fun e => { e with parsed := some f, state := .parsed } with
        tasks := [.claim (includesOf f) false (.mergeDependents f.path)] } := by
  obtain ⟨present, alive, -⟩ := entry_mem found
  have serial : entryBySerial? { s with tasks := [] } e.serial = some e := serial_of_mem filed present
  simp only [resume, advance, onStore, serial, alive, Bool.true_and, decide_true, if_true]
  rfl

theorem resume_fired {path : Bytes} {id : Nat} {e : Entry} (found : s.entry? path = some e) (mine : e.timerId = id) :
    resume env { s with tasks := [] } (.fired ⟨path, id⟩) =
      { s.updateEntry e.serial fun e => { e with timer := none, state := .parsing } with
        tasks := [.parse path e.serial e.generation e.text] } := by
  have here : entry? { s with tasks := [] } path = some e := found
  simp only [resume, advance, onFired, here, mine, if_true]
  rfl

theorem store_goes {goes : Session → Prop} {path : Bytes} {e : Entry} {f : File} (forced : Forced env goes) (sound : Sound s)
    (found : s.entry? path = some e) (only : s.tasks = [.store e.serial e.generation f]) (quiet : s.armed = []) (going : goes s) :
    ∃ u entries, Sound u ∧ goes u ∧
      u = { s with entries := entries, tasks := [.claim (includesOf f) false (.mergeDependents f.path)] } ∧
      ∀ p, u.entry? p = if p = path then some { e with parsed := some f, state := .parsed } else s.entry? p := by
  obtain ⟨sound', going'⟩ := forced sound only quiet going
  rw [resume_store sound.tended.filed found] at sound' going'
  refine ⟨_, _, sound', going', rfl, ?_⟩
  exact entry_updateOne sound.tended.filed found (fun _ => rfl) (fun _ => rfl) fun _ => rfl

theorem fired_goes {goes : Session → Prop} {path : Bytes} {id : Nat} {e : Entry} (forced : Forced env goes) (sound : Sound s)
    (found : s.entry? path = some e) (mine : e.timerId = id) (only : s.tasks = [.fired ⟨path, id⟩]) (quiet : s.armed = [])
    (going : goes s) :
    ∃ u entries, Sound u ∧ goes u ∧
      u = { s with entries := entries, tasks := [.claim (includesOf (File.ofText env.source env.includeDirs path e.text))
        false (.mergeDependents path)] } ∧
      ∀ p, u.entry? p = if p = path then
        some { e with
          timer := none
          parsed := some (File.ofText env.source env.includeDirs path e.text)
          state := .parsed }
        else s.entry? p := by
  have view : ∀ p, entry? (s.updateEntry e.serial fun e => { e with timer := none, state := .parsing }) p =
      if p = path then some { e with timer := none, state := .parsing } else s.entry? p :=
    entry_updateOne sound.tended.filed found (fun _ => rfl) (fun _ => rfl) fun _ => rfl
  have marked := view path
  rw [if_pos rfl] at marked
  obtain ⟨sound₁, going₁⟩ := forced sound only quiet going
  rw [resume_fired found mine] at sound₁ going₁
  obtain ⟨sound₂, going₂⟩ := forced sound₁ rfl quiet going₁
  obtain ⟨u, entries, sound', going', rfl, stored⟩ := store_goes forced sound₂ marked rfl quiet going₂
  refine ⟨_, entries, sound', going', rfl, fun p => (stored p).trans ?_⟩
  split
  · rfl
  · rename_i differ
    exact (view p).trans (if_neg differ)

section Puts

variable {path : Bytes} {e : Entry}

theorem puts_texts (puts : ∀ p, t.entry? p = if p = path then some e else s.entry? p) :
    t.openText? = Function.update s.openText? path (if e.isOpen then some e.text else none) := by
  funext p
  rw [openText?, puts, Function.update_apply]
  split
  · rfl
  · rfl

theorem puts_files (puts : ∀ p, t.entry? p = if p = path then some e else s.entry? p) :
    t.fileAt? = Function.update s.fileAt? path e.parsed := by
  funext p
  rw [fileAt?, puts, Function.update_apply]
  split
  · rfl
  · rfl

theorem puts_knows (puts : ∀ p, t.entry? p = if p = path then some e else s.entry? p) (p : Bytes) :
    t.Knows p ↔ s.Knows p ∨ p = path := by
  rw [knows_iff, knows_iff, puts]
  by_cases mine : p = path <;> simp [mine]

end Puts

theorem remerged_frame (entries : t.entries = s.entries) (bindings : t.bindings = s.bindings) (c : Context) :
    c.remerged t = c.remerged s := by
  rw [Context.remerged, Context.remerged, parsedFiles, parsedFiles, entries, bindings]

theorem renewed_frame (entries : t.entries = s.entries) (bindings : t.bindings = s.bindings) (c : Context) :
    c.renewed t = c.renewed s := by
  rw [Context.renewed, Context.renewed, remerged_frame entries bindings]

-- Some open contexts are merged anew from the files that there are in the end, and nothing else becomes of them.
structure Revises (s : Session) (ids : List ContextId) (t : Session) : Prop where
  enrolled : t.enrolled = s.enrolled
  current : t.current = s.current
  contexts : ∀ id, t.context? id = if id ∈ ids then (s.context? id).map (·.renewed t) else s.context? id
  passes : ∀ id ∈ ids, ∀ c, s.context? id = some c → c.Passes t

theorem Renews.revises {ids : List ContextId} (renews : Renews b ids t) (enrolled : b.enrolled = s.enrolled)
    (current : b.current = s.current) (contexts : ∀ id, b.context? id = s.context? id) : Revises s ids t where
  enrolled := renews.enrolled.trans enrolled
  current := renews.current.trans current
  contexts id := by
    have same : (fun c => Context.renewed t c) = fun c => Context.renewed b c :=
      funext (renewed_frame renews.entries renews.bindings)
    rw [renews.contexts id, contexts, same]
  passes id member c found := by
    rw [Context.Passes, remerged_frame renews.entries renews.bindings]
    exact renews.passes id member c ((contexts id).trans found)

theorem load_works {path : Bytes} {wave : List Bytes} (sound : Sound s)
    (idle : ∀ p e, s.entry? p = some e → e.state ≠ .parsing)
    (clean : ∀ id c, s.context? id = some c → c.dirty = false ∧ c.merging = false) (listed : s.enrolled.Nodup)
    (only : s.tasks = [.claim wave false (.mergeDependents path)]) (quiet : s.armed = []) (works : Works env s t)
    (ended : t.tasks = []) :
    Gains env s.openText? s.fileAt? s.Knows (Comes s.fileAt? (freshOf env s.openText?) wave) t ∧
      Revises s (s.dependentsOf path) t ∧ t.bindings = s.bindings := by
  have gathering : Gathering env s wave false (.mergeDependents path) s (.claim wave false (.mergeDependents path)) :=
    .claim (.initial sound.tended.filed idle) (.initial _ _ _) nofun nofun
  obtain ⟨u, failure, entries, last, pending, sound', works', gathered, rfl⟩ :=
    gathering_works sound gathering only quiet works ended
  have renews := dependents_works sound' clean listed rfl quiet works' ended
  refine ⟨?_, renews.revises rfl rfl fun _ => rfl, renews.bindings⟩
  cases gathered with
  | all _ loads => exact loads.gains.frame renews.entries
  | failed needed => cases needed

theorem put_works {path : Bytes} {wave : List Bytes} {e : Entry} (still : ∀ p e, s.entry? p = some e → e.state ≠ .parsing)
    (clean : ∀ id c, s.context? id = some c → c.dirty = false ∧ c.merging = false) (listed : s.enrolled.Nodup)
    (sound : Sound u) (puts : ∀ p, u.entry? p = if p = path then some e else s.entry? p) (idle : e.state ≠ .parsing)
    (frame : u.contexts = s.contexts ∧ u.enrolled = s.enrolled ∧ u.current = s.current ∧ u.bindings = s.bindings)
    (only : u.tasks = [.claim wave false (.mergeDependents path)]) (quiet : u.armed = []) (works : Works env u t)
    (ended : t.tasks = []) :
    Gains env (Function.update s.openText? path (if e.isOpen then some e.text else none))
        (Function.update s.fileAt? path e.parsed) (fun p => s.Knows p ∨ p = path)
        (Comes (Function.update s.fileAt? path e.parsed)
          (freshOf env (Function.update s.openText? path (if e.isOpen then some e.text else none))) wave) t ∧
      Revises s (s.dependentsOf path) t ∧ t.bindings = s.bindings := by
  obtain ⟨contexts, enrolled, current, bindings⟩ := frame
  have same : ∀ id, u.context? id = s.context? id := fun id => by rw [context?, contexts, context?]
  have dependents : u.dependentsOf path = s.dependentsOf path := by
    simp only [dependentsOf, uses, enrolled, same]
  obtain ⟨gains, revises, bound⟩ := load_works sound (fun p o found => by
      rw [puts] at found
      split at found
      · cases Option.some.inj found
        exact idle
      · exact still p o found)
    (fun id c found => clean id c (same id ▸ found)) (enrolled ▸ listed) only quiet works ended
  rw [dependents] at revises
  rw [puts_texts puts, puts_files puts, show u.Knows = fun p => s.Knows p ∨ p = path from
    funext fun p => propext (puts_knows puts p)] at gains
  refine ⟨gains, ⟨revises.enrolled.trans enrolled, revises.current.trans current, fun id => ?_,
    fun id member c found => revises.passes id member c ((same id).trans found)⟩, bound.trans bindings⟩
  rw [revises.contexts, same]

theorem change_frame (quiet : s.armed = []) (path text : Bytes) :
    ∃ entries last pending, s.change path text = { s with
      entries := entries, lastSerial := last, pending := pending, armed := [⟨path, s.lastTimer + 1⟩],
      lastTimer := s.lastTimer + 1 } := by
  obtain ⟨entries, last, pending, frame⟩ := ensureEntry_files s path
  obtain ⟨count, equal⟩ := change_quiet quiet path text
  rw [frame] at equal
  exact ⟨_, last, count, equal⟩

theorem change_puts (filed : Filed s.entries s.lastSerial) (quiet : s.armed = []) (path text p : Bytes) :
    entry? (s.change path text) p =
      if p = path then some ((s.ensureEntry path).1.edited text (s.lastTimer + 1)) else s.entry? p := by
  obtain ⟨filed, -⟩ := ensureEntry_filed filed path
  obtain ⟨count, equal⟩ := change_quiet quiet path text
  have made := entry_ensureEntry s path path
  rw [if_pos rfl] at made
  have edited : entry? ((s.ensureEntry path).2.updateEntry (s.ensureEntry path).1.serial
      (·.edited text (s.lastTimer + 1))) p = if p = path then some ((s.ensureEntry path).1.edited text (s.lastTimer + 1))
        else entry? (s.ensureEntry path).2 p :=
    entry_updateOne (f := (·.edited text (s.lastTimer + 1))) filed made (fun _ => rfl) (fun _ => rfl) (fun _ => rfl) p
  rw [entry_frame (s := (s.ensureEntry path).2.updateEntry _ _) (by rw [equal]), edited, entry_ensureEntry]
  split <;> rfl

structure Poised (s : Session) (path text : Bytes) (u : Session) : Prop where
  sound : Sound u
  frame : ∃ entries last pending, u = { s with
    entries := entries, lastSerial := last, pending := pending, armed := [⟨path, s.lastTimer + 1⟩],
    lastTimer := s.lastTimer + 1 }
  entry : ∃ e, (∀ p, u.entry? p = if p = path then some e else s.entry? p) ∧ e.text = text ∧ e.isOpen = true ∧
    e.timer = some (s.lastTimer + 1) ∧ e.timerId = s.lastTimer + 1

theorem change_poised (sound : Sound s) (quiet : s.armed = []) (path text : Bytes) :
    Poised s path text (s.change path text) where
  sound := apply_sound sound (.change path text)
  frame := change_frame quiet path text
  entry := ⟨_, change_puts sound.tended.filed quiet path text, rfl, rfl, rfl, rfl⟩

-- A text that comes while the timer runs takes the place of the one before, and the timer begins anew.
theorem Poised.change {path text : Bytes} (poised : Poised s path text u) (text' : Bytes) :
    Poised s path text' (u.change path text') := by
  obtain ⟨sound, ⟨entries, last, pending, frame⟩, e, puts, -, -, timer, number⟩ := poised
  have found := puts path
  rw [if_pos rfl] at found
  have armed : u.armed = [⟨path, s.lastTimer + 1⟩] := by rw [frame]
  have known : u.ensureEntry path = (e, u) := by
    unfold ensureEntry
    rw [found]
  have equal : u.change path text' =
      u.updateEntry e.serial fun e => { e with text := text', isOpen := true, generation := e.generation + 1 } := by
    simp [Session.change, known, timer, updateEntry, armed]
  have edited : ∀ p, entry? (u.updateEntry e.serial fun e =>
      { e with text := text', isOpen := true, generation := e.generation + 1 }) p =
        if p = path then some { e with text := text', isOpen := true, generation := e.generation + 1 } else u.entry? p :=
    entry_updateOne (f := fun e => { e with text := text', isOpen := true, generation := e.generation + 1 })
      sound.tended.filed found (fun _ => rfl) (fun _ => rfl) fun _ => rfl
  refine ⟨apply_sound sound (.change path text'), ?_, ?_⟩
  · rw [equal, frame]
    exact ⟨_, _, _, rfl⟩
  · rw [equal]
    refine ⟨{ e with text := text', isOpen := true, generation := e.generation + 1 }, fun p => (edited p).trans ?_, rfl, rfl,
      timer, number⟩
    split
    · rfl
    · rename_i differ
      exact (puts p).trans (if_neg differ)

theorem poised_works {path text : Bytes} (still : ∀ p e, s.entry? p = some e → e.state ≠ .parsing)
    (clean : ∀ id c, s.context? id = some c → c.dirty = false ∧ c.merging = false) (listed : s.enrolled.Nodup)
    (idle : s.tasks = []) (poised : Poised s path text u) (works : Works env u t) (tasks : t.tasks = [])
    (armed : t.armed = []) :
    Gains env (Function.update s.openText? path (some text))
        (Function.update s.fileAt? path (some (File.ofText env.source env.includeDirs path text)))
        (fun p => s.Knows p ∨ p = path)
        (Comes (Function.update s.fileAt? path (some (File.ofText env.source env.includeDirs path text)))
          (freshOf env (Function.update s.openText? path (some text)))
          (includesOf (File.ofText env.source env.includeDirs path text))) t ∧
      Revises s (s.dependentsOf path) t ∧ t.bindings = s.bindings := by
  obtain ⟨sound, ⟨entries, last, pending, rfl⟩, e, puts, rfl, opened, -, number⟩ := poised
  obtain ⟨sound₁, works₁⟩ := works_timer sound idle rfl works armed
  have found := puts path
  rw [if_pos rfl] at found
  obtain ⟨u, entries', sound₂, works₂, rfl, stored⟩ := fired_goes (works_forced tasks) sound₁ found number rfl rfl works₁
  have outcome := put_works still clean listed sound₂ (e := { e with
      timer := none, parsed := some (File.ofText env.source env.includeDirs path e.text), state := .parsed })
    (fun p => (stored p).trans (by
      split
      · rfl
      · rename_i differ
        exact (puts p).trans (if_neg differ))) nofun ⟨rfl, rfl, rfl, rfl⟩ rfl rfl works₂ tasks
  rw [opened] at outcome
  exact outcome

theorem change_works {path text : Bytes} (rest : AtRest s) (works : Works env (s.change path text) t) (tasks : t.tasks = [])
    (armed : t.armed = []) :
    Gains env (Function.update s.openText? path (some text))
        (Function.update s.fileAt? path (some (File.ofText env.source env.includeDirs path text)))
        (fun p => s.Knows p ∨ p = path)
        (Comes (Function.update s.fileAt? path (some (File.ofText env.source env.includeDirs path text)))
          (freshOf env (Function.update s.openText? path (some text)))
          (includesOf (File.ofText env.source env.includeDirs path text))) t ∧
      Revises s (s.dependentsOf path) t ∧ t.bindings = s.bindings :=
  poised_works rest.idle rest.clean rest.listed rest.tasks (change_poised rest.sound rest.armed path text) works tasks armed

theorem reload_works {path : Bytes} {e : Entry} (sound : Sound s) (found : s.entry? path = some e)
    (only : s.tasks = [.reload path]) (quiet : s.armed = []) (works : Works env s t) (ended : t.tasks = []) :
    ∃ u entries pending, Sound u ∧ Works env u t ∧
      u = { s with entries := entries, pending := pending, tasks := [.claim [path] false (.mergeDependents path)] } ∧
      ∀ p, u.entry? p = if p = path then some { e with generation := e.generation + 1, parsed := none, state := .unparsed }
        else s.entry? p := by
  have empties : resume env { s with tasks := [] } (.reload path) =
      { s.updateEntry e.serial fun e => { e with generation := e.generation + 1, parsed := none, state := .unparsed } with
        pending := s.pending + 1, tasks := [.claim [path] false (.mergeDependents path)] } := by
    have here : entry? { s with tasks := [] } path = some e := found
    simp only [resume, advance, onReload, here]
    rfl
  obtain ⟨sound', works'⟩ := works_single sound only quiet works ended
  rw [empties] at sound' works'
  refine ⟨_, _, _, sound', works', rfl, ?_⟩
  exact entry_updateOne (f := fun e => { e with generation := e.generation + 1, parsed := none, state := .unparsed })
    sound.tended.filed found (fun _ => rfl) (fun _ => rfl) fun _ => rfl

theorem close_works {path : Bytes} (rest : AtRest s) (used : s.isUsed path = true) (known : s.Knows path)
    (works : Works env (s.close path) t) (tasks : t.tasks = []) :
    Gains env (Function.update s.openText? path none) (Function.update s.fileAt? path none) s.Knows
        (Comes (Function.update s.fileAt? path none) (freshOf env (Function.update s.openText? path none)) [path]) t ∧
      Revises s (s.dependentsOf path) t ∧ t.bindings = s.bindings := by
  obtain ⟨e, found⟩ := knows_iff.mp known
  have sound : Sound (s.close path) := apply_sound rest.sound (.close path)
  obtain ⟨last, -, equal⟩ := close_eq found
  rw [used] at equal
  rw [equal] at sound works
  have closed : ∀ p, entry? (s.updateEntry e.serial fun o =>
      { o with live := o.live && true, text := [], isOpen := false, timer := none, timerId := last }) p =
        if p = path then some { e with live := e.live && true, text := [], isOpen := false, timer := none, timerId := last }
        else s.entry? p :=
    entry_updateOne (f := fun o => { o with live := o.live && true, text := [], isOpen := false, timer := none, timerId := last })
      rest.sound.tended.filed found (fun _ => rfl) (fun _ => rfl) fun o => Bool.and_true o.live
  have here := closed path
  rw [if_pos rfl] at here
  have only : s.tasks ++ (if true = true then [Task.reload path] else []) = [.reload path] := by
    rw [rest.tasks]
    rfl
  have quiet : (s.armed.filter fun t => e.timer != some t.id) = [] := by rw [rest.armed, List.filter_nil]
  obtain ⟨u, entries, pending, sound', works', rfl, emptied⟩ := reload_works sound here only quiet works tasks
  have outcome := put_works rest.idle rest.clean rest.listed sound' (e := { e with
      live := e.live && true, text := [], isOpen := false, timer := none, timerId := last, generation := e.generation + 1,
      parsed := none, state := .unparsed })
    (fun p => (emptied p).trans (by
      split
      · rfl
      · rename_i differ
        exact (closed p).trans (if_neg differ))) nofun ⟨rfl, rfl, rfl, rfl⟩ rfl quiet works' tasks
  have names : (fun p => s.Knows p ∨ p = path) = s.Knows :=
    funext fun p => propext (or_iff_left_of_imp fun mine => mine ▸ known)
  rw [names] at outcome
  exact outcome

theorem entry_dropped (filed : Filed s.entries s.lastSerial) {path : Bytes} {e : Entry} (found : s.entry? path = some e)
    {f : Entry → Entry} (serial : ∀ e, (f e).serial = e.serial) (located : ∀ e, (f e).path = e.path)
    (dead : ∀ e, (f e).live = false) (p : Bytes) :
    entry? (s.updateEntry e.serial f) p = if p = path then none else s.entry? p := by
  obtain ⟨present, alive, rfl⟩ := entry_mem found
  split
  · rename_i mine
    subst mine
    refine List.find?_eq_none.mpr fun o member => ?_
    rcases mem_updateEntry.mp member with ⟨o, -, -, rfl⟩ | ⟨there, differ⟩
    · simp [dead]
    · simp only [Bool.and_eq_true, decide_eq_true_eq, not_and]
      exact fun live same => differ (congrArg Entry.serial (filed.single o there e present live alive same))
  · rename_i differ
    exact entry_elsewhere filed present serial located (fun o live => by rw [dead] at live; cases live) differ

theorem close_drops {path : Bytes} (rest : AtRest s) (unused : s.isUsed path = false) :
    (∀ p, entry? (s.close path) p = if p = path then none else s.entry? p) ∧
      ∃ entries timer pending,
        s.close path = { s with entries := entries, lastTimer := timer, pending := pending } := by
  cases found : s.entry? path with
  | none =>
    have same : s.close path = s := by
      unfold close
      rw [found]
    rw [same]
    refine ⟨fun p => ?_, _, _, _, rfl⟩
    split
    · rename_i mine
      rw [mine, found]
    · rfl
  | some e =>
    obtain ⟨last, -, equal⟩ := close_eq found
    rw [unused] at equal
    have dropped : ∀ p, entry? (s.updateEntry e.serial fun o =>
        { o with live := o.live && false, text := [], isOpen := false, timer := none, timerId := last }) p =
          if p = path then none else s.entry? p :=
      entry_dropped (f := fun o => { o with live := o.live && false, text := [], isOpen := false, timer := none, timerId := last })
        rest.sound.tended.filed found (fun _ => rfl) (fun _ => rfl) fun o => Bool.and_false o.live
    have armed : (s.armed.filter fun t => e.timer != some t.id) = s.armed := by rw [rest.armed, List.filter_nil]
    rw [armed] at equal
    rw [equal]
    refine ⟨dropped, ?_⟩
    simp only [Bool.false_eq_true, if_false, List.append_nil]
    exact ⟨_, _, _, rfl⟩

theorem dropEntry_entry (tended : Tended s s.duties) {path : Bytes} {e : Entry} (found : s.entry? path = some e)
    (closed : e.isOpen = false) (p : Bytes) : entry? (s.dropEntry e) p = if p = path then none else s.entry? p := by
  obtain ⟨present, alive, -⟩ := entry_mem found
  rw [(dropEntry_closed tended present alive closed).1]
  exact entry_dropped (f := fun e => { e with live := false, timer := none, timerId := s.lastTimer + 1 }) tended.filed found
    (fun _ => rfl) (fun _ => rfl) (fun _ => rfl) p

theorem prune_entry (tended : Tended s s.duties) (paths : List Bytes) (p : Bytes) :
    entry? (s.prune paths) p =
      if p ∈ paths ∧ s.openText? p = none ∧ s.isUsed p = false then none else s.entry? p := by
  induction paths generalizing s with
  | nil => simp [prune]
  | cons path rest ih =>
    -- A path that is kept does not meet the condition either.
    have stays : (s.prune (path :: rest)) = s.prune rest →
        (s.openText? path = none → s.isUsed path = false → s.entry? path = none) →
        entry? (s.prune (path :: rest)) p =
          if p ∈ path :: rest ∧ s.openText? p = none ∧ s.isUsed p = false then none else s.entry? p := by
      intro equal kept
      rw [equal, ih tended]
      by_cases mine : p = path
      · subst mine
        by_cases gone : s.openText? p = none ∧ s.isUsed p = false
        · simp [gone, kept gone.1 gone.2]
        · simp [gone]
      · simp [mine]
    cases found : s.entry? path with
    | none =>
      refine stays ?_ fun _ _ => found
      rw [prune, prune, List.foldl_cons, found]
    | some e =>
      by_cases keeps : (e.isOpen || s.isUsed path) = true
      · refine stays ?_ fun closed unused => ?_
        · rw [prune, prune, List.foldl_cons, found]
          simp only [keeps, if_true]
        · simp [openText?, found] at closed
          simp [closed, unused] at keeps
      · rw [Bool.or_eq_true, not_or, Bool.not_eq_true, Bool.not_eq_true] at keeps
        obtain ⟨closed, unused⟩ := keeps
        obtain ⟨present, alive, -⟩ := entry_mem found
        have drops := dropEntry_entry tended found closed
        have equal : s.prune (path :: rest) = (s.dropEntry e).prune rest := by
          rw [prune, prune, List.foldl_cons, found]
          simp only [closed, unused, Bool.or_self, Bool.false_eq_true, if_false]
        have used : (s.dropEntry e).isUsed p = s.isUsed p := by
          rw [dropEntry_eq]
          rfl
        have text : openText? s path = none := by simp [openText?, found, closed]
        rw [equal, ih (dropEntry_tended tended present alive closed), openText?, drops, used]
        by_cases mine : p = path
        · subst mine
          simp [text, unused]
        · simp [mine, openText?]

theorem remove_absent {id : ContextId} (absent : id ∉ s.enrolled) : s.remove id = s := by
  unfold remove
  cases s.context? id with
  | none => rfl
  | some c => simp [absent]

theorem remove_drops {id : ContextId} (rest : AtRest s) (member : id ∈ s.enrolled) :
    ∃ c entries timer events, s.context? id = some c ∧
      s.remove id = { s.strike id with entries := entries, lastTimer := timer, events := events } ∧
      ∀ p, entry? (s.remove id) p =
        if p ∈ c.deps ∧ s.openText? p = none ∧ (s.strike id).isUsed p = false then none else s.entry? p := by
  obtain ⟨c, found, -⟩ := rest.sound.held.enrolled id member
  have equal : s.remove id =
      { (s.strike id).prune c.deps with events := ((s.strike id).prune c.deps).events ++ [.deleted id] } := by
    simp only [remove, found, List.elem_eq_mem, member, decide_true, if_true]
    rfl
  have struck : Tended (s.strike id) (s.strike id).duties := rest.sound.tended.frame rfl rfl rfl
  obtain ⟨-, entries, last, pruned⟩ := prune_tended struck c.deps
  refine ⟨c, entries, last, s.events ++ [.deleted id], found, ?_, fun p => ?_⟩
  · rw [equal, pruned]
    rfl
  · rw [equal]
    exact prune_entry struck c.deps p

def Context.opening (name base : Bytes) (overlays : List Bytes) : Context :=
  ⟨name, base, overlays, none, base :: overlays, false, false, false, 0, none⟩

theorem context_openContext (name base : Bytes) (overlays : List Bytes) (id : ContextId) :
    (s.openContext name base overlays).2.context? id =
      if id = s.contexts.size then some (.opening name base overlays) else s.context? id :=
  Array.getElem?_push

-- The roots are loaded with all that they lead to, and the context is merged; or a root cannot be read, and nothing
-- but the roots is loaded.
theorem open_works {name base : Bytes} {overlays : List Bytes} (rest : AtRest s)
    (works : Works env (s.openContext name base overlays).2 t) (ended : t.tasks = []) :
    ((∀ p ∈ base :: overlays, s.fileAt? p = none → (freshOf env s.openText? p).isSome = true) ∧
      Gains env s.openText? s.fileAt? s.Knows (Comes s.fileAt? (freshOf env s.openText?) (base :: overlays)) t ∧
      t.enrolled = s.enrolled ++ [s.contexts.size] ∧
      (∀ id, t.context? id = if id = s.contexts.size then some ((Context.opening name base overlays).renewed t)
        else s.context? id) ∧
      (Context.opening name base overlays).Passes t ∧ t.current = s.current ∧ t.bindings = s.bindings) ∨
    ((∃ p ∈ base :: overlays, s.fileAt? p = none ∧ freshOf env s.openText? p = none) ∧
      Gains env s.openText? s.fileAt? (fun p => s.Knows p ∨ p ∈ base :: overlays)
        (fun p => p ∈ base :: overlays ∧ ¬ GivesUp env (.openContext s.contexts.size) s.fileAt? (freshOf env s.openText?)
          (base :: overlays) p) t ∧ t.enrolled = s.enrolled ∧
      (∃ failure, ∀ id, t.context? id =
        if id = s.contexts.size then some { Context.opening name base overlays with failure := some failure }
        else s.context? id) ∧
      t.current = s.current ∧ t.bindings = s.bindings ∧ t.events = s.events) := by
  have sound : Sound (s.openContext name base overlays).2 := apply_sound rest.sound (.openContext name base overlays)
  have contexts := context_openContext (s := s) name base overlays
  have only : (s.openContext name base overlays).2.tasks =
      [.claim (base :: overlays) true (.openContext s.contexts.size)] := by
    simp only [openContext, addPending, rest.tasks, List.nil_append, Context.roots]
  have clean := rest.cleans contexts ⟨rfl, rfl⟩
  have gathering : Gathering env (s.openContext name base overlays).2 (base :: overlays) true (.openContext s.contexts.size)
      (s.openContext name base overlays).2 (.claim (base :: overlays) true (.openContext s.contexts.size)) :=
    .claim (.initial sound.tended.filed rest.idle) (.initial _ _ _) (fun _ => ⟨rfl, rfl, fun _ => id⟩)
      fun included => by cases included
  obtain ⟨u, failure, entries, last, pending, sound₁, works₁, gathered, rfl⟩ :=
    gathering_works sound gathering only rest.armed works ended
  obtain ⟨sound₂, works₂⟩ := retry_works sound₁ clean rfl rest.armed works₁ ended
  have noted : ∀ (failure : Option LoadError) (id : ContextId),
      ((s.openContext name base overlays).2.recorded failure (.openContext s.contexts.size)).context? id =
        if id = s.contexts.size then some { Context.opening name base overlays with failure } else s.context? id := by
    intro failure id
    rw [recorded, context_updateContext, contexts]
    by_cases mine : id = s.contexts.size
    · simp [mine]
    · simp [mine, Ne.symm mine]
  cases gathered with
  | all readable loads =>
    have renews := enroll_works sound₂ (rest.cleans (noted none) ⟨rfl, rfl⟩) rfl rest.armed works₂ ended
    refine .inl ⟨readable rfl, loads.gains.frame renews.entries, renews.enrolled, fun id => ?_, ?_, renews.current,
      renews.bindings⟩
    · have shown := renews.contexts id
      by_cases mine : id = s.contexts.size
      · rw [if_pos (List.mem_singleton.mpr mine)] at shown
        rw [if_pos mine, renewed_frame renews.entries renews.bindings]
        exact shown.trans (congrArg (Option.map _) ((noted none id).trans (if_pos mine)))
      · rw [if_neg (mt List.mem_singleton.mp mine)] at shown
        rw [if_neg mine]
        exact shown.trans ((noted none id).trans (if_neg mine))
    · rw [Context.Passes, remerged_frame renews.entries renews.bindings]
      exact renews.passes _ (List.mem_singleton_self _) _ ((noted none _).trans (if_pos rfl))
  | @failed failure needed unreadable loads =>
    cases release_works sound₂ rfl rest.armed works₂ ended
    exact .inr ⟨unreadable, loads.gains_spared.frame rfl, rfl, ⟨failure, noted (some failure)⟩, rfl, rfl, rfl⟩

theorem bindings_works {paths : List Bytes} (rest : AtRest s) (works : Works env (s.loadBindings paths) t)
    (ended : t.tasks = []) :
    t.entries = s.entries ∧ Revises s s.enrolled t ∧
      t.bindings = some (Loader.load env.source .empty paths).catalog := by
  have sound : Sound (s.loadBindings paths) := apply_sound rest.sound (.loadBindings paths)
  have only : (s.loadBindings paths).tasks = [.bindings paths] := by
    simp only [loadBindings, addPending, rest.tasks, List.nil_append]
  obtain ⟨sound', works'⟩ := works_single sound only rest.armed works ended
  have renews : Renews _ s.enrolled t := ask_works sound' rest.clean rest.listed (fun _ => id) rfl rest.armed works' ended
  exact ⟨renews.entries, renews.revises rfl rfl fun _ => rfl, renews.bindings⟩

end DeviceTree.Session
