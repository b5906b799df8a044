import DeviceTree.Proofs.Session.Freshness

namespace DeviceTree.Session

-- A parse that is under way and the editor's text that it is made of; what is read from the source has none.
-- A file that is not loaded is claimed for it first.
structure Draft where
  serial : Nat
  generation : Nat
  path : Bytes
  text : Option Bytes
  isClaimed : Bool

def Job.draft (j : Job) : Draft := ⟨j.serial, j.generation, j.path, if j.isOpen then some j.text else none, true⟩

def Task.drafts : Task → List Draft
  | .parse path serial generation text => [⟨serial, generation, path, some text, false⟩]
  | .store serial generation f => [⟨serial, generation, f.path, some f.text, false⟩]
  | .read _ jobs _ _ => jobs.map Job.draft
  | .collect results _ _ => results.map fun r => r.1.draft
  | _ => []

def Task.wave : Task → List Bytes
  | .claim wave _ _ => wave
  | _ => []

-- The parses that come to nothing because another root of their wave could not be read.
def Task.losses (env : Environment) : Task → List Draft
  | .read wave jobs isRoots goal => (jobs.filter (isGivenUp env wave jobs isRoots goal)).map Job.draft
  | _ => []

def losses (env : Environment) (s : Session) : Action → List Draft
  | .work k => (s.tasks[k]?).toList.flatMap (Task.losses env)
  | _ => []

-- The steps of a session with the calls among them, the latest first, and the parses that were given up. Each step
-- may find another environment.
inductive Ran : List Call → List Draft → Session → Prop where
  | start : Ran [] [] empty
  | call {calls : List Call} {lost : List Draft} {s : Session} (c : Call) (running : s.crash = none)
      (before : Ran calls lost s) : Ran (c :: calls) lost (c.apply s)
  | work {calls : List Call} {lost : List Draft} {s t : Session} (env : Environment) (k : Nat) (before : Ran calls lost s)
      (step : act env s (.work k) = some t) : Ran calls (losses env s (.work k) ++ lost) t
  | fire {calls : List Call} {lost : List Draft} {s t : Session} (env : Environment) (k : Nat) (before : Ran calls lost s)
      (step : act env s (.fire k) = some t) : Ran calls lost t

abbrev Goes : Session → Session → Prop := Relation.ReflTransGen fun s t => ∃ env a, act env s a = some t

theorem ran_sound {calls : List Call} {lost : List Draft} {s : Session} (ran : Ran calls lost s) : Sound s := by
  induction ran with
  | start => exact empty_sound
  | call c _ _ ih => exact apply_sound ih c
  | work env k _ step ih => exact act_sound ih step
  | fire env k _ step ih => exact act_sound ih step

def lastEdit : List Call → Bytes → Option Bytes
  | [], _ => none
  | .change path text :: earlier, p => if p = path then some text else lastEdit earlier p
  | _ :: earlier, p => lastEdit earlier p

theorem lastEdit_of_editorText {calls : List Call} {p text : Bytes} (shown : editorText calls p = some text) :
    lastEdit calls p = some text := by
  induction calls with
  | nil => cases shown
  | cons c earlier ih =>
    cases c with
    | change path new =>
      simp only [editorText, lastEdit] at shown ⊢
      split at shown
      · rename_i same
        rw [if_pos same]
        exact shown
      · rename_i other
        rw [if_neg other]
        exact ih shown
    | close path =>
      simp only [editorText] at shown
      split at shown
      · cases shown
      · exact ih shown
    | _ => exact ih shown

def IsParse (f : File) (path text : Bytes) : Prop := ∃ source dirs, f = File.ofText source dirs path text

-- What a read brought back for a job. An editor's text can always be parsed, and comes to nothing only if given up.
structure Job.Answered (lost : List Draft) (j : Job) (result : Option File) : Prop where
  parsed : ∀ f, result = some f → ∃ text, IsParse f j.path text ∧ (j.isOpen = true → text = j.text)
  certain : j.isOpen = true → result = none → j.draft ∈ lost

def Task.Honest (lost : List Draft) : Task → Prop
  | .store _ _ f => IsParse f f.path f.text
  | .collect results _ _ => ∀ r ∈ results, r.1.Answered lost r.2
  | _ => True

theorem Task.Honest.mono {lost lost' : List Draft} {task : Task} (honest : task.Honest lost) (more : ∀ d ∈ lost, d ∈ lost') :
    task.Honest lost' := by
  cases task with
  | store => exact honest
  | collect results =>
    exact fun r member => ⟨(honest r member).parsed, fun opened empty => more _ ((honest r member).certain opened empty)⟩
  | _ => trivial

theorem resultOf_answered (env : Environment) {wave : List Bytes} {jobs : List Job} {isRoots : Bool} {goal : Goal} {j : Job}
    (member : j ∈ jobs) :
    j.Answered (Task.losses env (.read wave jobs isRoots goal)) (resultOf env wave jobs isRoots goal j) := by
  unfold resultOf
  split
  · rename_i skipped
    exact ⟨nofun, fun _ _ => List.mem_map_of_mem (List.mem_filter.mpr ⟨member, skipped⟩)⟩
  · unfold readJob
    split
    · rename_i opened
      refine ⟨?_, nofun⟩
      rintro f ⟨⟩
      exact ⟨j.text, ⟨_, _, rfl⟩, fun _ => rfl⟩
    · rename_i closed
      refine ⟨fun f read => ?_, fun opened => absurd opened closed⟩
      obtain ⟨text, rfl⟩ := read_ofText read
      exact ⟨text, ⟨_, _, rfl⟩, fun opened => absurd opened closed⟩

theorem advance_honest (env : Environment) (s : Session) {task next : Task} (proper : task.proper = true)
    (step : (advance env s task).1 = some next) : next.Honest (task.losses env) := by
  cases task with
  | parse path n g text =>
    cases Option.some.inj step
    exact ⟨_, _, rfl⟩
  | read wave jobs isRoots goal =>
    cases Option.some.inj step
    intro r member
    obtain ⟨j, there, rfl⟩ := List.mem_map.mp member
    exact resultOf_answered env there
  | request contexts following =>
    cases contexts with
    | nil =>
      cases Option.some.inj step
      cases next <;> trivial
    | cons id rest =>
      cases Option.some.inj step
      trivial
  | retry failure goal =>
    cases Option.some.inj step
    trivial
  | fired t =>
    simp only [advance, onFired] at step
    split at step
    · split at step <;> cases step
      trivial
    · cases step
  | store n g f =>
    simp only [advance, onStore] at step
    split at step
    · split at step <;> cases step
      trivial
    · cases step
  | claim wave =>
    simp only [advance] at step
    split at step <;> cases step <;> trivial
  | collect results =>
    simp only [advance] at step
    split at step <;> cases step <;> trivial
  | merge id =>
    simp only [advance, onMerge] at step
    split at step
    · cases step
    · split at step <;> cases step
      trivial
  | publish id tree =>
    simp only [advance, onPublish] at step
    split at step
    · cases step
      trivial
    · split at step
      · cases step
      · split at step <;> cases step
        trivial
  | reload | enroll | dependents | bindings =>
    cases Option.some.inj step
    trivial
  | release => cases step

def Entry.draft (e : Entry) : Draft := ⟨e.serial, e.generation, e.path, some e.text, true⟩

-- What is known of a live entry: its text, the parses of it that are under way, and why it is parsed or will be,
-- unless the parse was given up.
structure Minded (calls : List Call) (lost ds : List Draft) (ws : List Bytes) (e : Entry) : Prop where
  shown : editorText calls e.path = if e.isOpen then some e.text else none
  past : ∀ d ∈ ds, d.serial = e.serial → d.path = e.path ∧ d.generation ≤ e.generation
  latest : ∀ d ∈ ds, d.serial = e.serial → d.generation = e.generation →
    (e.isOpen = true → d.text = some e.text) ∧ ∀ text, d.text = some text → lastEdit calls e.path = some text
  claimed : ∀ d ∈ ds, d.isClaimed = true → d.serial = e.serial → d.generation = e.generation → e.isOpen = true →
    ∀ f, e.parsed = some f → IsParse f e.path e.text
  parsing : e.isOpen = true → e.state = .parsing →
    e.timer ≠ none ∨ ∃ d ∈ ds, d.serial = e.serial ∧ d.generation = e.generation
  seen : e.isOpen = true → (∃ f, e.parsed = some f ∧ IsParse f e.path e.text) ∨ e.timer ≠ none ∨
    (∃ d ∈ ds, d.serial = e.serial ∧ d.generation = e.generation) ∨
      e.parsed = none ∧ (e.path ∈ ws ∨ e.draft ∈ lost)

theorem Minded.carry {calls calls' : List Call} {lost lost' ds ds' : List Draft} {ws ws' : List Bytes} {e : Entry}
    (minded : Minded calls lost ds ws e) (shown : editorText calls' e.path = editorText calls e.path)
    (edits : lastEdit calls' e.path = lastEdit calls e.path) (fewer : ∀ d ∈ ds', d.serial = e.serial → d ∈ ds)
    (kept : ∀ d ∈ ds, d.serial = e.serial → d.generation = e.generation → d ∈ ds')
    (waits : e.path ∈ ws → e.path ∈ ws') (more : ∀ d ∈ lost, d ∈ lost') : Minded calls' lost' ds' ws' e := by
  have current : (∃ d ∈ ds, d.serial = e.serial ∧ d.generation = e.generation) →
      ∃ d ∈ ds', d.serial = e.serial ∧ d.generation = e.generation := by
    rintro ⟨d, member, mine, now⟩
    exact ⟨d, kept d member mine now, mine, now⟩
  refine ⟨shown.trans minded.shown, fun d member mine => minded.past d (fewer d member mine) mine, ?_,
    fun d member claim mine => minded.claimed d (fewer d member mine) claim mine, ?_, ?_⟩
  · intro d member mine now
    rw [edits]
    exact minded.latest d (fewer d member mine) mine now
  · intro opened parsing
    exact (minded.parsing opened parsing).imp_right current
  · intro opened
    rcases minded.seen opened with done | timer | draft | ⟨empty, there⟩
    · exact .inl done
    · exact .inr (.inl timer)
    · exact .inr (.inr (.inl (current draft)))
    · exact .inr (.inr (.inr ⟨empty, there.imp waits (more _)⟩))

theorem Knows.update {s : Session} {p : Bytes} (known : s.Knows p) (n : Nat) {f : Entry → Entry}
    (path : ∀ e, (f e).path = e.path) (live : ∀ e, (f e).live = e.live) : (s.updateEntry n f).Knows p :=
  (updateEntry_knows s n p path live).mpr known

structure Attended (calls : List Call) (lost : List Draft) (s : Session) (ds : List Draft) (ws : List Bytes) : Prop where
  filed : Filed s.entries s.lastSerial
  minded : ∀ e ∈ s.entries, e.live = true → Minded calls lost ds ws e
  drawn : ∀ d ∈ ds, d.serial ≤ s.lastSerial
  listed : ∀ p, editorText calls p ≠ none → s.Knows p

namespace Attended

variable {calls calls' : List Call} {lost lost' : List Draft} {s t : Session} {ds ds' : List Draft} {ws ws' : List Bytes}

theorem congr (attended : Attended calls lost s ds ws) (drafts : ∀ d, d ∈ ds ↔ d ∈ ds') (waits : ∀ p ∈ ws, p ∈ ws')
    (more : ∀ d ∈ lost, d ∈ lost') : Attended calls lost' s ds' ws' where
  filed := attended.filed
  minded e present alive := (attended.minded e present alive).carry rfl rfl (fun d member _ => (drafts d).mpr member)
    (fun d member _ _ => (drafts d).mp member) (waits e.path) more
  drawn d member := attended.drawn d ((drafts d).mpr member)
  listed := attended.listed

theorem frame (attended : Attended calls lost s ds ws) (entries : t.entries = s.entries) (serial : t.lastSerial = s.lastSerial) :
    Attended calls lost t ds ws where
  filed := by rw [entries, serial]; exact attended.filed
  minded := by rw [entries]; exact attended.minded
  drawn := by rw [serial]; exact attended.drawn
  listed p shown := by
    rw [Knows, entries]
    exact attended.listed p shown

theorem update (attended : Attended calls lost s ds ws) {n : Nat} {f : Entry → Entry} (serial : ∀ e, (f e).serial = e.serial)
    (path : ∀ e, (f e).path = e.path) (live : ∀ e, (f e).live = true → e.live = true)
    (others : ∀ o ∈ s.entries, o.live = true → o.serial ≠ n → Minded calls' lost' ds' ws' o)
    (self : ∀ e ∈ s.entries, e.serial = n → (f e).live = true → Minded calls' lost' ds' ws' (f e))
    (drawn : ∀ d ∈ ds', d.serial ≤ s.lastSerial) (listed : ∀ p, editorText calls' p ≠ none → (s.updateEntry n f).Knows p) :
    Attended calls' lost' (s.updateEntry n f) ds' ws' where
  filed := attended.filed.update n serial path live
  minded := by
    intro e present alive
    rcases mem_updateEntry.mp present with ⟨o, member, equal, rfl⟩ | ⟨member, differ⟩
    · exact self o member equal alive
    · exact others e member alive differ
  drawn := drawn
  listed := listed

end Attended

variable {calls : List Call} {lost : List Draft} {s : Session} {ds : List Draft} {ws : List Bytes}

theorem Minded.drop {d : Draft} {e : Entry} (minded : Minded calls lost (d :: ds) ws e)
    (apart : d.serial = e.serial → d.generation ≠ e.generation) : Minded calls lost ds ws e :=
  minded.carry rfl rfl (fun _ member _ => List.mem_cons_of_mem _ member)
    (fun _ member mine now => (List.mem_cons.mp member).resolve_left fun equal => apart (equal ▸ mine) (equal ▸ now)) id fun _ => id

theorem Minded.reads {d : Draft} {e : Entry} (minded : Minded calls lost (d :: ds) ws e) (mine : d.serial = e.serial)
    (now : d.generation = e.generation) {f : File} {text : Bytes} (parse : IsParse f d.path text)
    (right : ∀ shown, d.text = some shown → text = shown) (opened : e.isOpen = true) : IsParse f e.path e.text := by
  have typed := (minded.latest d List.mem_cons_self mine now).1 opened
  rw [← (minded.past d List.mem_cons_self mine).1, ← right _ typed]
  exact parse

theorem Minded.store {d : Draft} {e : Entry} (minded : Minded calls lost (d :: ds) ws e) (mine : d.serial = e.serial)
    (now : d.generation = e.generation) {f : File} {text : Bytes} (parse : IsParse f d.path text)
    (right : ∀ shown, d.text = some shown → text = shown) :
    Minded calls lost ds ws { e with parsed := some f, state := .parsed } where
  shown := minded.shown
  past x member := minded.past x (List.mem_cons_of_mem _ member)
  latest x member := minded.latest x (List.mem_cons_of_mem _ member)
  claimed x member claim mine' now' opened f' stored := by
    cases Option.some.inj stored
    exact minded.reads mine now parse right opened
  parsing _ := nofun
  seen opened := .inl ⟨f, rfl, minded.reads mine now parse right opened⟩

-- No parse of a file is of a text that is still to come.
theorem Minded.outdated {e : Entry} (minded : Minded calls lost ds ws e) {d : Draft} (due : d ∈ ds) (mine : d.serial = e.serial) :
    (d.path = e.path ∧ d.generation ≤ e.generation + 1) ∧ d.generation ≠ e.generation + 1 := by
  obtain ⟨located, older⟩ := minded.past d due mine
  exact ⟨⟨located, Nat.le_succ_of_le older⟩, Nat.ne_of_lt (Nat.lt_succ_of_le older)⟩

-- A parse of a file begins. If the file is open in the editor, it is of the text that was sent last.
theorem Attended.begins {e : Entry} {ws' : List Bytes} (attended : Attended calls lost s ds ws) (present : e ∈ s.entries)
    (alive : e.live = true) (timer : Entry → Option Nat) (claimed : Bool) (unread : claimed = true → e.parsed = none)
    (waits : ∀ o ∈ s.entries, o.live = true → o.serial ≠ e.serial → o.path ∈ ws → o.path ∈ ws') :
    Attended calls lost (s.updateEntry e.serial fun o => { o with state := .parsing, timer := timer o })
      (⟨e.serial, e.generation, e.path, if e.isOpen then some e.text else none, claimed⟩ :: ds) ws' := by
  have old := attended.minded e present alive
  refine attended.update (fun _ => rfl) (fun _ => rfl) (fun _ => id) ?_ ?_ ?_ ?_
  · intro o member live differ
    refine (attended.minded o member live).carry rfl rfl ?_ (fun d due _ _ => List.mem_cons_of_mem _ due)
      (waits o member live differ) fun _ => id
    intro d due mine
    exact (List.mem_cons.mp due).resolve_left fun equal => differ (by rw [← mine, equal])
  · intro o member equal _
    cases attended.filed.same_serial member present equal
    refine ⟨old.shown, ?_, ?_, ?_, fun _ _ => .inr ⟨_, List.mem_cons_self, rfl, rfl⟩,
      fun _ => .inr (.inr (.inl ⟨_, List.mem_cons_self, rfl, rfl⟩))⟩
    · intro d due mine
      rcases List.mem_cons.mp due with rfl | due
      · exact ⟨rfl, Nat.le_refl _⟩
      · exact old.past d due mine
    · intro d due mine now
      rcases List.mem_cons.mp due with rfl | due
      · exact ⟨fun opened => if_pos opened, fun text typed => lastEdit_of_editorText (old.shown.trans typed)⟩
      · exact old.latest d due mine now
    · intro d due claim mine now opened f stored
      rcases List.mem_cons.mp due with rfl | due
      · rw [unread claim] at stored
        cases stored
      · exact old.claimed d due claim mine now opened f stored
  · intro d due
    rcases List.mem_cons.mp due with rfl | due
    · exact attended.filed.known e present
    · exact attended.drawn d due
  · exact fun p known => (attended.listed p known).update _ (fun _ => rfl) fun _ => rfl

theorem onFired_attended {t : Timer} (attended : Attended calls lost s ds ws)
    (opened : ∀ e, s.entry? t.path = some e → e.timerId = t.id → e.isOpen = true) :
    Attended calls lost (s.onFired t).2 ((s.onFired t).1.toList.flatMap Task.drafts ++ ds) ws := by
  unfold onFired
  split
  · rename_i e found
    obtain ⟨present, alive, located⟩ := entry_mem found
    split
    · rename_i current
      have begun := attended.begins present alive (fun _ => none) false nofun fun _ _ _ _ there => there
      rw [if_pos (opened e found current), located] at begun
      exact begun
    · exact attended.frame rfl rfl
  · exact attended.frame rfl rfl

theorem onStore_attended {n g : Nat} {f : File} (honest : IsParse f f.path f.text)
    (attended : Attended calls lost s (⟨n, g, f.path, some f.text, false⟩ :: ds) ws) : Attended calls lost (s.onStore n g f).2 ds ws := by
  have drawn : ∀ d ∈ ds, d.serial ≤ s.lastSerial := fun d due => attended.drawn d (List.mem_cons_of_mem _ due)
  -- A stale parse is the latest of no file.
  have stale : (∀ e ∈ s.entries, e.live = true → n = e.serial → g ≠ e.generation) → Attended calls lost s.donePending ds ws :=
    fun apart => ⟨attended.filed, fun e present alive => (attended.minded e present alive).drop (apart e present alive),
      drawn, attended.listed⟩
  unfold onStore
  split
  · rename_i e found
    obtain ⟨present, rfl⟩ := serial_mem found
    split
    · rename_i current
      simp only [Bool.and_eq_true, decide_eq_true_eq] at current
      refine attended.update (fun _ => rfl) (fun _ => rfl) (fun _ => id) ?_ ?_ drawn ?_
      · exact fun o member alive differ => (attended.minded o member alive).drop fun mine => absurd mine.symm differ
      · intro o member equal alive
        cases attended.filed.same_serial member present equal
        refine (attended.minded e present alive).store rfl current.2.symm honest ?_
        rintro shown ⟨⟩
        rfl
      · exact fun p known => (attended.listed p known).update _ (fun _ => rfl) fun _ => rfl
    · rename_i other
      simp only [Bool.and_eq_true, decide_eq_true_eq, not_and] at other
      refine stale fun o member alive equal now => ?_
      cases attended.filed.same_serial present member equal
      exact other alive now.symm
  · rename_i missing
    refine stale fun o member alive equal => ?_
    rw [equal, serial_of_mem attended.filed member] at missing
    cases missing

theorem ensureEntry_attended (attended : Attended calls lost s ds ws) (path : Bytes) :
    Attended calls lost (s.ensureEntry path).2 ds ws := by
  unfold ensureEntry
  split
  · exact attended
  · rename_i missing
    have closed : editorText calls path = none := by
      by_contra shown
      obtain ⟨e, present, alive, located⟩ := attended.listed path shown
      exact entry_none missing present alive located
    refine ⟨attended.filed.add rfl fun e present alive => entry_none missing present alive, ?_, ?_, ?_⟩
    · intro e present alive
      rcases List.mem_append.mp present with old | new
      · exact attended.minded e old alive
      · cases List.mem_singleton.mp new
        have unused : ∀ d ∈ ds, d.serial ≠ s.lastSerial + 1 := by
          intro d due equal
          have bound := attended.drawn d due
          omega
        exact ⟨closed, fun d due mine => absurd mine (unused d due), fun d due mine => absurd mine (unused d due),
          fun d due _ mine => absurd mine (unused d due), nofun, nofun⟩
    · exact fun d due => Nat.le_succ_of_le (attended.drawn d due)
    · intro p shown
      obtain ⟨e, present, known⟩ := attended.listed p shown
      exact ⟨e, List.mem_append_left _ present, known⟩

theorem claimWave_attended (wave : List Bytes) (attended : Attended calls lost s ds (wave ++ ws)) :
    Attended calls lost (s.claimWave wave).2 ((s.claimWave wave).1.map Job.draft ++ ds) ws := by
  induction wave generalizing s ds with
  | nil => exact attended
  | cons path rest ih =>
    have ensured := ensureEntry_attended attended path
    obtain ⟨-, present, alive, located⟩ := ensureEntry_filed attended.filed path
    unfold claimWave
    dsimp only
    generalize s.ensureEntry path = made at ensured present alive located ⊢
    obtain ⟨e, s⟩ := made
    dsimp only at ensured present alive located ⊢
    have old := ensured.minded e present alive
    -- No other live entry has the path.
    have others : ∀ o ∈ s.entries, o.live = true → o.serial ≠ e.serial → o.path ∈ path :: rest ++ ws → o.path ∈ rest ++ ws := by
      intro o member live differ there
      refine (List.mem_cons.mp there).resolve_left fun same => differ ?_
      rw [ensured.filed.single o member e present live alive (same.trans located.symm)]
    split
    · rename_i taken
      refine ih ⟨ensured.filed, fun o member live => ?_, ensured.drawn, ensured.listed⟩
      by_cases mine : o.serial = e.serial
      · cases ensured.filed.same_serial member present mine
        refine ⟨old.shown, old.past, old.latest, old.claimed, old.parsing, fun opened => ?_⟩
        rcases old.seen opened with done | timer | draft | ⟨empty, there⟩
        · exact .inl done
        · exact .inr (.inl timer)
        · exact .inr (.inr (.inl draft))
        · have parsing : e.state = .parsing := by simpa [empty] using taken
          exact (old.parsing opened parsing).elim (fun timer => .inr (.inl timer)) fun draft => .inr (.inr (.inl draft))
      · exact (ensured.minded o member live).carry rfl rfl (fun _ due _ => due) (fun _ due _ _ => due) (others o member live mine)
          fun _ => id
    · rename_i free
      have free : e.parsed = none ∧ e.state ≠ .parsing := by simpa using free
      have claimed : Attended calls lost (s.updateEntry e.serial fun e => { e with state := .parsing })
          (Job.draft ⟨path, e.serial, e.generation, e.text, e.isOpen⟩ :: ds) (rest ++ ws) := by
        rw [← located]
        exact ensured.begins present alive Entry.timer true (fun _ => free.1) others
      exact (ih claimed).congr (fun d => List.perm_middle.mem_iff) (fun _ there => there) fun _ => id

theorem collectResult_attended {j : Job} {result : Option File} (answered : j.Answered lost result)
    (attended : Attended calls lost s (j.draft :: ds) ws) : Attended calls lost (s.collectResult j result).2 ds ws := by
  have drawn : ∀ d ∈ ds, d.serial ≤ s.lastSerial := fun d due => attended.drawn d (List.mem_cons_of_mem _ due)
  have others : ∀ o ∈ s.entries, o.live = true → o.serial ≠ j.serial → Minded calls lost ds ws o :=
    fun o member alive differ => (attended.minded o member alive).drop fun mine => absurd mine.symm differ
  -- What comes to nothing is not the editor's, or is given up.
  have settled : (∀ e ∈ s.entries, e.live = true → e.serial = j.serial → e.generation = j.generation → result = none) →
      Attended calls lost (settleState s j.serial) ds ws := by
    intro empty
    refine attended.update (fun _ => rfl) (fun _ => rfl) (fun _ => id) others ?_ drawn ?_
    · intro e member equal alive
      have old := attended.minded e member alive
      refine ⟨old.shown, fun d due => old.past d (List.mem_cons_of_mem _ due), fun d due =>
        old.latest d (List.mem_cons_of_mem _ due), fun d due => old.claimed d (List.mem_cons_of_mem _ due),
        fun _ parsing => ?_, fun opened => ?_⟩
      · dsimp only at parsing
        split at parsing <;> cases parsing
      · by_cases now : e.generation = j.generation
        · cases stored : e.parsed with
          | some f => exact .inl ⟨f, rfl, old.claimed j.draft List.mem_cons_self rfl equal.symm now.symm opened f stored⟩
          | none =>
            have typed := (old.latest j.draft List.mem_cons_self equal.symm now.symm).1 opened
            have same : e.draft = j.draft := by
              simp only [Entry.draft, Job.draft, equal, now, ← (old.past j.draft List.mem_cons_self equal.symm).1]
              simp only [← typed, Job.draft]
            have shown : j.isOpen = true := by
              by_contra shut
              simp [Job.draft, shut] at typed
            exact .inr (.inr (.inr ⟨rfl, .inr (same ▸ answered.certain shown (empty e member alive equal now))⟩))
        · exact (old.drop fun _ same => now same.symm).seen opened
    · exact fun p known => (attended.listed p known).update _ (fun _ => rfl) fun _ => rfl
  unfold collectResult
  split
  · rename_i e f found
    obtain ⟨present, serial⟩ := serial_mem found
    split
    · rename_i current
      refine attended.update (fun _ => rfl) (fun _ => rfl) (fun _ => id) others ?_ drawn ?_
      · intro o member equal alive
        cases attended.filed.same_serial member present (equal.trans serial.symm)
        obtain ⟨text, parse, right⟩ := answered.parsed f rfl
        refine (attended.minded e present alive).store serial.symm current.symm parse fun shown typed => ?_
        unfold Job.draft at typed
        dsimp only at typed
        split at typed
        · rename_i opened
          exact (right opened).trans (Option.some.inj typed)
        · cases typed
      · exact fun p known => (attended.listed p known).update _ (fun _ => rfl) fun _ => rfl
    · rename_i stale
      refine settled fun o member alive equal now => absurd ?_ stale
      rw [attended.filed.same_serial present member (serial.trans equal.symm)]
      exact now
  · rename_i unread
    refine settled fun o member alive equal now => Option.eq_none_iff_forall_ne_some.mpr fun f read => ?_
    exact unread o f (equal ▸ serial_of_mem attended.filed member) read

theorem collectResults_attended (results : List (Job × Option File)) (answered : ∀ r ∈ results, r.1.Answered lost r.2)
    (attended : Attended calls lost s (results.map (fun r => r.1.draft) ++ ds) ws) :
    Attended calls lost (s.collectResults results).2 ds ws := by
  induction results generalizing s with
  | nil => exact attended
  | cons r rest ih =>
    exact ih (fun r member => answered r (List.mem_cons_of_mem _ member))
      (collectResult_attended (answered r List.mem_cons_self) attended)

theorem onReload_attended (attended : Attended calls lost s ds ws) (path : Bytes) :
    Attended calls lost (s.onReload path).2 ds (path :: ws) := by
  have later : Attended calls lost s ds (path :: ws) := attended.congr (fun _ => Iff.rfl) (fun _ => List.mem_cons_of_mem _) fun _ => id
  unfold onReload
  dsimp only
  split
  · rename_i e found
    obtain ⟨present, alive, rfl⟩ := entry_mem found
    refine Attended.frame (s := s.updateEntry e.serial _) ?_ rfl rfl
    refine later.update (fun _ => rfl) (fun _ => rfl) (fun _ => id) ?_ ?_ later.drawn ?_
    · exact fun o member live _ => later.minded o member live
    · intro o member equal _
      cases later.filed.same_serial member present equal
      have old := later.minded e present alive
      exact ⟨old.shown, fun d due mine => (old.outdated due mine).1, fun d due mine now => absurd now (old.outdated due mine).2,
        fun _ _ _ _ _ => nofun, fun _ => nofun, fun _ => .inr (.inr (.inr ⟨rfl, .inl List.mem_cons_self⟩))⟩
    · exact fun p known => (later.listed p known).update _ (fun _ => rfl) fun _ => rfl
  · exact later.frame rfl rfl

theorem advance_attended (env : Environment) {task : Task} (proper : task.proper = true) (honest : task.Honest lost)
    (opened : ∀ t e, task = .fired t → s.entry? t.path = some e → e.timerId = t.id → e.isOpen = true)
    (attended : Attended calls lost s (task.drafts ++ ds) (task.wave ++ ws)) :
    Attended calls lost (advance env s task).2 ((advance env s task).1.toList.flatMap Task.drafts ++ ds)
      ((advance env s task).1.toList.flatMap Task.wave ++ ws) := by
  -- What is not asked for any more need not be there.
  have more : ∀ {t : Session} {ws' : List Bytes} (waits : List Bytes), Attended calls lost t ds ws' → (∀ p ∈ ws', p ∈ waits) →
      Attended calls lost t ds waits :=
    fun waits there wider => there.congr (fun _ => Iff.rfl) wider fun _ => id
  cases task with
  | fired t =>
    have fired := onFired_attended attended fun e => opened t e rfl
    exact fired.congr (fun _ => Iff.rfl) (fun p there => List.mem_append_right _ there) fun _ => id
  | parse => exact attended
  | store n g f =>
    have stored := onStore_attended honest attended
    have free : (s.onStore n g f).1.toList.flatMap Task.drafts = [] := by
      unfold onStore
      split
      · split <;> rfl
      · rfl
    simp only [advance, free]
    exact more _ stored fun p there => List.mem_append_right _ there
  | claim wave isRoots goal =>
    simp only [advance]
    split
    · rename_i empty
      cases List.isEmpty_iff.mp empty
      exact attended
    · have claimed := claimWave_attended wave attended
      simp only [Option.toList_some, List.flatMap_singleton, Task.drafts]
      exact claimed
  | read wave jobs isRoots goal =>
    simp only [advance, Option.toList_some, List.flatMap_singleton, Task.drafts, List.map_map]
    exact attended
  | collect results failure goal =>
    have collected := collectResults_attended results honest attended
    simp only [advance]
    split <;> exact more _ collected fun p there => List.mem_append_right _ there
  | reload path => exact onReload_attended attended path
  | retry failure goal => cases goal <;> exact attended.frame rfl rfl
  | enroll | dependents | bindings | release => exact attended.frame rfl rfl
  | request contexts next =>
    cases contexts with
    | nil =>
      have free : next.drafts = [] ∧ next.wave = [] := by
        cases next <;> first | exact ⟨rfl, rfl⟩ | cases proper
      simp only [advance, Option.toList_some, List.flatMap_singleton, free.1, free.2]
      exact attended
    | cons i rest =>
      rcases requestMerge_cases s i with ⟨same, -⟩ | ⟨c, -, -, -, same⟩ | ⟨c, -, -, -, same⟩ <;>
        simp only [advance, same] <;> exact attended.frame rfl rfl
  | merge i =>
    simp only [advance, onMerge]
    split
    · exact attended.frame rfl rfl
    · split <;> exact attended.frame rfl rfl
  | publish i tree =>
    simp only [advance, onPublish]
    split
    · exact attended.frame rfl rfl
    · split
      · exact attended.frame rfl rfl
      · split <;> exact attended.frame rfl rfl

theorem Minded.elsewhere {e : Entry} (minded : Minded calls lost ds ws e) {c : Call}
    (shown : editorText (c :: calls) e.path = editorText calls e.path)
    (edits : lastEdit (c :: calls) e.path = lastEdit calls e.path) : Minded (c :: calls) lost ds ws e :=
  minded.carry shown edits (fun _ due _ => due) (fun _ due _ _ => due) id fun _ => id

theorem change_entries (s : Session) (path text : Bytes) :
    ∃ (timer : Entry → Option Nat) (timerId : Entry → Nat), timer (s.ensureEntry path).1 ≠ none ∧
      (s.change path text).lastSerial = (s.ensureEntry path).2.lastSerial ∧
      (s.change path text).entries = ((s.ensureEntry path).2.updateEntry (s.ensureEntry path).1.serial fun e =>
        { e with text, isOpen := true, generation := e.generation + 1, timer := timer e, timerId := timerId e }).entries := by
  unfold change
  generalize s.ensureEntry path = made
  obtain ⟨e, s⟩ := made
  dsimp only
  split
  · rename_i t armed
    obtain ⟨id, set, -⟩ := Option.bind_eq_some_iff.mp armed
    exact ⟨(·.timer), (·.timerId), by simp [set], rfl, rfl⟩
  · refine ⟨fun _ => some (s.lastTimer + 1), fun _ => s.lastTimer + 1, nofun, rfl, ?_⟩
    have twice := congrArg Session.entries <| updateEntry_twice s e.serial
      (fun e => { e with text, isOpen := true, generation := e.generation + 1 })
      (fun e => { e with timer := some (s.lastTimer + 1), timerId := s.lastTimer + 1 }) fun _ => rfl
    exact twice

theorem change_attended (attended : Attended calls lost s ds ws) (path text : Bytes) :
    Attended (.change path text :: calls) lost (s.change path text) ds ws := by
  have ensured := ensureEntry_attended attended path
  obtain ⟨-, present, alive, located⟩ := ensureEntry_filed attended.filed path
  obtain ⟨timer, timerId, set, serial, entries⟩ := change_entries s path text
  generalize s.ensureEntry path = made at ensured present alive located set serial entries
  obtain ⟨e, u⟩ := made
  dsimp only at ensured present alive located set serial entries
  refine Attended.frame ?_ entries serial
  refine ensured.update (fun _ => rfl) (fun _ => rfl) (fun _ => id) ?_ ?_ ensured.drawn ?_
  · intro o member live differ
    have apart : o.path ≠ path := fun same =>
      differ (congrArg Entry.serial (ensured.filed.single o member e present live alive (same.trans located.symm)))
    exact (ensured.minded o member live).elsewhere (by simp [editorText, apart]) (by simp [lastEdit, apart])
  · intro o member equal _
    cases ensured.filed.same_serial member present equal
    have old := ensured.minded e present alive
    exact ⟨by simp [editorText, located], fun d due mine => (old.outdated due mine).1,
      fun d due mine now => absurd now (old.outdated due mine).2,
      fun d due _ mine now => absurd now (old.outdated due mine).2, fun _ _ => .inl set, fun _ => .inr (.inl set)⟩
  · intro p shown
    refine Knows.update ?_ _ (fun _ => rfl) fun _ => rfl
    by_cases mine : p = path
    · exact ⟨e, present, alive, located.trans mine.symm⟩
    · exact ensured.listed p (by simpa [editorText, mine] using shown)

theorem close_attended (attended : Attended calls lost s ds ws) (path : Bytes) :
    Attended (.close path :: calls) lost (s.close path) ds ws := by
  have others : ∀ o ∈ s.entries, o.live = true → o.path ≠ path → Minded (.close path :: calls) lost ds ws o :=
    fun o member live apart => (attended.minded o member live).elsewhere (by simp [editorText, apart]) rfl
  have listed : ∀ p, editorText (.close path :: calls) p ≠ none → p ≠ path ∧ s.Knows p := by
    intro p shown
    by_cases mine : p = path
    · simp [editorText, mine] at shown
    · exact ⟨mine, attended.listed p (by simpa [editorText, mine] using shown)⟩
  cases found : s.entry? path with
  | none =>
    unfold close
    rw [found]
    exact ⟨attended.filed, fun o member live => others o member live (entry_none found member live), attended.drawn,
      fun p shown => (listed p shown).2⟩
  | some e =>
    obtain ⟨present, alive, rfl⟩ := entry_mem found
    obtain ⟨last, -, equal⟩ := close_eq found
    rw [equal]
    refine Attended.frame (s := s.updateEntry e.serial _) ?_ rfl rfl
    refine attended.update (fun _ => rfl) (fun _ => rfl) (fun _ live => (Bool.and_eq_true_iff.mp live).1) ?_ ?_ attended.drawn ?_
    · intro o member live differ
      exact others o member live fun same => differ (congrArg Entry.serial (attended.filed.single o member e present live alive same))
    · intro o member equal _
      cases attended.filed.same_serial member present equal
      have old := attended.minded e present alive
      exact ⟨by simp [editorText], old.past, fun d due mine now => ⟨by simp, (old.latest d due mine now).2⟩, by simp, by simp,
        by simp⟩
    · intro p shown
      obtain ⟨apart, o, member, live, located⟩ := listed p shown
      refine ⟨o, mem_updateEntry.mpr (.inr ⟨member, fun same => apart ?_⟩), live, located⟩
      rw [← located, attended.filed.same_serial member present same]

-- Only files that the editor does not show are dropped with a context.
theorem prune_attended (attended : Attended calls lost s ds ws) (paths : List Bytes) : Attended calls lost (s.prune paths) ds ws := by
  induction paths generalizing s with
  | nil => exact attended
  | cons path rest ih =>
    rcases prune_cons s path rest with equal | ⟨e, found, closed, -, equal⟩ <;> rw [equal]
    · exact ih attended
    · obtain ⟨present, alive, -⟩ := entry_mem found
      refine ih ?_
      rw [dropEntry_eq]
      refine Attended.frame (s := s.updateEntry e.serial _) ?_ rfl rfl
      refine attended.update (fun _ => rfl) (fun _ => rfl) nofun ?_ nofun attended.drawn ?_
      · exact fun o member live _ => attended.minded o member live
      · intro p shown
        obtain ⟨o, member, live, located⟩ := attended.listed p shown
        refine ⟨o, mem_updateEntry.mpr (.inr ⟨member, fun same => shown ?_⟩), live, located⟩
        cases attended.filed.same_serial member present same
        rw [← located, (attended.minded e present alive).shown, closed]
        rfl

theorem apply_attended (attended : Attended calls lost s ds ws) (c : Call) :
    Attended (c :: calls) lost (c.apply s) ds ws := by
  cases c with
  | change path text => exact change_attended attended path text
  | close path => exact close_attended attended path
  | openContext name base overlays =>
    exact ⟨attended.filed, fun e present alive => (attended.minded e present alive).elsewhere rfl rfl, attended.drawn,
      attended.listed⟩
  | loadBindings paths =>
    exact ⟨attended.filed, fun e present alive => (attended.minded e present alive).elsewhere rfl rfl, attended.drawn,
      attended.listed⟩
  | remove id =>
    have same : Attended (.remove id :: calls) lost s ds ws :=
      ⟨attended.filed, fun e present alive => (attended.minded e present alive).elsewhere rfl rfl, attended.drawn,
        attended.listed⟩
    rcases remove_cases s id with equal | ⟨c, -, -, equal⟩
    · rw [Call.apply, equal]
      exact same
    · rw [Call.apply, equal]
      exact (prune_attended (same.frame (t := s.strike id) rfl rfl) c.deps).frame rfl rfl

theorem apply_tasks (tended : Tended s s.duties) (c : Call) :
    ∃ new, (c.apply s).tasks = s.tasks ++ new ∧ ∀ task ∈ new, task.drafts = [] ∧ task.Honest [] := by
  cases c with
  | change path text =>
    obtain ⟨entries, last, pending, frame⟩ := ensureEntry_files s path
    have tasks : (s.ensureEntry path).2.tasks = s.tasks := by rw [frame]
    refine ⟨[], ?_, nofun⟩
    rw [List.append_nil, ← tasks]
    simp only [Call.apply, change]
    split <;> rfl
  | close path =>
    cases found : s.entry? path with
    | none =>
      refine ⟨[], ?_, nofun⟩
      simp only [Call.apply, close, found, List.append_nil]
    | some e =>
      obtain ⟨last, -, equal⟩ := close_eq found
      refine ⟨if s.isUsed path then [.reload path] else [], by rw [Call.apply, equal], fun task member => ?_⟩
      split at member
      · cases List.mem_singleton.mp member
        exact ⟨rfl, trivial⟩
      · cases member
  | openContext name base overlays =>
    refine ⟨_, rfl, fun task member => ?_⟩
    cases List.mem_singleton.mp member
    exact ⟨rfl, trivial⟩
  | remove id =>
    refine ⟨[], ?_, nofun⟩
    rw [List.append_nil]
    rcases remove_cases s id with same | ⟨c, -, -, equal⟩
    · rw [Call.apply, same]
    · have struck : Tended (s.strike id) (s.strike id).duties := tended.frame rfl rfl rfl
      obtain ⟨-, entries, last, pruned⟩ := prune_tended struck c.deps
      rw [Call.apply, equal, pruned]
      rfl
  | loadBindings paths =>
    refine ⟨_, rfl, fun task member => ?_⟩
    cases List.mem_singleton.mp member
    exact ⟨rfl, trivial⟩

theorem fired_opened (tended : Tended s s.duties) {t : Timer} (member : .fired t ∈ s.tasks) {e : Entry}
    (found : s.entry? t.path = some e) (current : e.timerId = t.id) : e.isOpen = true := by
  obtain ⟨present, alive, located⟩ := entry_mem found
  have due : .timer t ∈ s.duties :=
    List.mem_append_right _ (List.mem_flatMap.mpr ⟨_, member, List.mem_singleton_self _⟩)
  have here : t = ⟨e.path, e.timerId⟩ := by rw [located, current]
  have kept := tended.kept e present alive
  exact (kept.running _ (kept.recorded (here ▸ due))).2.1

def drafts (s : Session) : List Draft := s.tasks.flatMap Task.drafts
def waits (s : Session) : List Bytes := s.tasks.flatMap Task.wave

structure Minds (calls : List Call) (lost : List Draft) (s : Session) : Prop where
  attended : Attended calls lost s s.drafts s.waits
  honest : ∀ task ∈ s.tasks, task.Honest lost

theorem apply_minds (sound : Sound s) (minds : Minds calls lost s) (c : Call) : Minds (c :: calls) lost (c.apply s) := by
  obtain ⟨new, tasks, free⟩ := apply_tasks sound.tended c
  have none : new.flatMap Task.drafts = [] := List.flatMap_eq_nil_iff.mpr fun task member => (free task member).1
  refine ⟨(apply_attended minds.attended c).congr (fun d => ?_) (fun p there => ?_) fun _ => id, fun task member => ?_⟩
  · simp only [drafts, tasks, List.flatMap_append, none, List.append_nil]
  · simp only [waits, tasks, List.flatMap_append]
    exact List.mem_append_left _ there
  · rw [tasks] at member
    exact (List.mem_append.mp member).elim (minds.honest task) fun fresh => (free task fresh).2.mono nofun

theorem work_minds {env : Environment} {t : Session} {k : Nat} (sound : Sound s) (minds : Minds calls lost s)
    (step : act env s (.work k) = some t) : Minds calls (losses env s (.work k) ++ lost) t := by
  obtain ⟨-, task, present, rfl⟩ := act_work_iff.mp step
  have order := pick_perm present
  have here : task ∈ s.tasks := order.mem_iff.mpr List.mem_cons_self
  have proper := sound.held.proper task here
  have losing : losses env s (.work k) = task.losses env := by simp [losses, present]
  have more : ∀ d ∈ lost, d ∈ task.losses env ++ lost := fun d => List.mem_append_right _
  rw [losing]
  generalize taken : ({ s with tasks := s.tasks.eraseIdx k } : Session) = u
  have tasks : u.tasks = s.tasks.eraseIdx k := taken ▸ rfl
  have before : Attended calls lost u (task.drafts ++ u.drafts) (task.wave ++ u.waits) := by
    simp only [drafts, waits, tasks]
    refine (minds.attended.frame (t := u) (taken ▸ rfl) (taken ▸ rfl)).congr (fun d => ?_) (fun p => ?_) fun _ => id
    · exact (order.flatMap_right Task.drafts).mem_iff
    · exact (order.flatMap_right Task.wave).mem_iff.mp
  have opened : ∀ t e, task = .fired t → u.entry? t.path = some e → e.timerId = t.id → e.isOpen = true := by
    rintro t e rfl found current
    subst taken
    exact fired_opened sound.tended here found current
  have after := advance_attended env proper (minds.honest task here) opened before
  -- What the step leaves for others is at most a merge loop, which parses nothing.
  have left : (advance env u task).2.drafts = u.drafts ∧ (advance env u task).2.waits = u.waits ∧
      ∀ n ∈ (advance env u task).2.tasks, n ∈ u.tasks ∨ n.Honest lost := by
    rcases (advance_frame env u task).2.2 with same | ⟨id, more⟩
    · simp only [drafts, waits, same, true_and]
      exact fun n member => .inl member
    · simp only [drafts, waits, more, List.flatMap_append]
      refine ⟨List.append_nil _, List.append_nil _, fun n member => (List.mem_append.mp member).imp_right fun new => ?_⟩
      cases List.mem_singleton.mp new
      trivial
  refine ⟨Attended.frame (after.congr (fun d => ?_) (fun p there => ?_) more) rfl rfl, fun n member => ?_⟩
  · simp only [resume, drafts, List.flatMap_append] at left ⊢
    rw [left.1]
  · simp only [resume, waits, List.flatMap_append] at left ⊢
    rw [left.2.1]
    exact there
  · rcases List.mem_append.mp member with next | old
    · exact (advance_honest env u proper (Option.mem_toList.mp next)).mono fun d => List.mem_append_left _
    · refine ((left.2.2 n old).elim (fun there => minds.honest n ?_) id).mono more
      rw [tasks] at there
      exact order.mem_iff.mpr (List.mem_cons_of_mem _ there)

theorem ran_minds (ran : Ran calls lost s) : Minds calls lost s := by
  induction ran with
  | start => exact ⟨⟨empty_sound.tended.filed, nofun, nofun, fun _ shown => absurd rfl shown⟩, nofun⟩
  | call c running before ih => exact apply_minds (ran_sound before) ih c
  | work env k before step ih => exact work_minds (ran_sound before) ih step
  | fire env k before step ih =>
    obtain ⟨-, t, -, rfl⟩ := act_fire_iff.mp step
    refine ⟨Attended.frame (ih.attended.congr (fun d => ?_) (fun p there => ?_) fun _ => id) rfl rfl, fun task member => ?_⟩
    · simp [drafts, Task.drafts]
    · simp only [waits, List.flatMap_append]
      exact List.mem_append_left _ there
    · rcases List.mem_append.mp member with old | new
      · exact ih.honest task old
      · cases List.mem_singleton.mp new
        trivial

end DeviceTree.Session
