import DeviceTree.Proofs.Session.Steps

namespace DeviceTree.Session

structure Kept (d : List Duty) (e : Entry) : Prop where
  running : ∀ id, e.timer = some id → e.timerId = id ∧ e.isOpen = true ∧ .timer ⟨e.path, id⟩ ∈ d
  recorded : .timer ⟨e.path, e.timerId⟩ ∈ d → e.timer = some e.timerId
  past : ∀ g, .draft e.serial g ∈ d → g ≤ e.generation
  typed : .draft e.serial e.generation ∈ d → e.isOpen = true ∨ .refresh e.path ∈ d
  outstanding : e.state = .parsing →
    .job e.serial ∈ d ∨ .draft e.serial e.generation ∈ d ∨ e.timer ≠ none ∨ .refresh e.path ∈ d

-- A duty that an entry cannot do without.
def Duty.Concerns (e : Entry) : Duty → Prop
  | .timer t => t = ⟨e.path, e.timerId⟩
  | .draft n g => n = e.serial ∧ g = e.generation
  | .job n => n = e.serial
  | .refresh path => path = e.path

-- A duty that an entry need not know of.
def Duty.Harmless (e : Entry) : Duty → Prop
  | .timer t => t ≠ ⟨e.path, e.timerId⟩
  | .draft n _ => n ≠ e.serial
  | _ => True

namespace Kept

variable {d d' : List Duty} {e : Entry} {x : Duty}

theorem carry (kept : Kept d e) (past : ∀ g, .draft e.serial g ∈ d' → g ≤ e.generation)
    (timer : .timer ⟨e.path, e.timerId⟩ ∈ d ↔ .timer ⟨e.path, e.timerId⟩ ∈ d')
    (draft : .draft e.serial e.generation ∈ d ↔ .draft e.serial e.generation ∈ d')
    (job : .job e.serial ∈ d → .job e.serial ∈ d') (refresh : .refresh e.path ∈ d → .refresh e.path ∈ d') :
    Kept d' e := by
  refine ⟨?_, fun present => kept.recorded (timer.mpr present), past, ?_, ?_⟩
  · intro id set
    obtain ⟨rfl, opened, present⟩ := kept.running id set
    exact ⟨rfl, opened, timer.mp present⟩
  · intro present
    exact (kept.typed (draft.mpr present)).imp_right refresh
  · intro parsing
    rcases kept.outstanding parsing with reading | drafted | set | reload
    · exact .inl (job reading)
    · exact .inr (.inl (draft.mp drafted))
    · exact .inr (.inr (.inl set))
    · exact .inr (.inr (.inr (refresh reload)))

theorem congr (kept : Kept d e) (same : ∀ x, x ∈ d ↔ x ∈ d') : Kept d' e :=
  kept.carry (fun g present => kept.past g ((same _).mpr present)) (same _) (same _) (same _).mp (same _).mp

theorem tail (kept : Kept (x :: d) e) (apart : ¬ x.Concerns e) : Kept d e := by
  have mem : ∀ y : Duty, y.Concerns e → (y ∈ x :: d ↔ y ∈ d) := by
    intro y concerned
    rw [List.mem_cons]
    refine ⟨fun present => present.resolve_left fun equal => apart (equal ▸ concerned), .inr⟩
  exact kept.carry (fun g present => kept.past g (.tail _ present)) (mem _ rfl) (mem _ ⟨rfl, rfl⟩)
    (mem (.job e.serial) rfl).mp (mem (.refresh e.path) rfl).mp

theorem cons (kept : Kept d e) (harmless : x.Harmless e) : Kept (x :: d) e := by
  refine kept.carry ?_ ?_ ?_ (.tail _) (.tail _)
  · intro g present
    rcases List.mem_cons.mp present with rfl | old
    · exact absurd rfl harmless
    · exact kept.past g old
  · refine ⟨.tail _, fun present => ?_⟩
    rcases List.mem_cons.mp present with rfl | old
    · exact absurd rfl harmless
    · exact old
  · refine ⟨.tail _, fun present => ?_⟩
    rcases List.mem_cons.mp present with rfl | old
    · exact absurd rfl harmless
    · exact old

theorem finish (kept : Kept (x :: d) e) (done : (∃ n g, x = .draft n g) ∨ ∃ n, x = .job n) (parsed : Option File)
    {state : ParseState} (rest : state ≠ .parsing) : Kept d { e with parsed, state } := by
  refine ⟨?_, fun ticking => kept.recorded (.tail _ ticking), fun g drafted => kept.past g (.tail _ drafted), ?_, ?_⟩
  · intro id set
    obtain ⟨same, opened, ticking⟩ := kept.running id set
    refine ⟨same, opened, (List.mem_cons.mp ticking).resolve_left ?_⟩
    rcases done with ⟨n, g, rfl⟩ | ⟨n, rfl⟩ <;> nofun
  · intro drafted
    rcases kept.typed (.tail _ drafted) with opened | reload
    · exact .inl opened
    · refine .inr ((List.mem_cons.mp reload).resolve_left ?_)
      rcases done with ⟨n, g, rfl⟩ | ⟨n, rfl⟩ <;> nofun
  · exact fun parsing => absurd parsing rest

end Kept

structure Tended (s : Session) (d : List Duty) : Prop where
  filed : Filed s.entries s.lastSerial
  kept : ∀ e ∈ s.entries, e.live = true → Kept d e
  drafts : ∀ n g, .draft n g ∈ d → n ≤ s.lastSerial
  clocks : (clocks d).Nodup
  ticks : ∀ t, .timer t ∈ d → 0 < t.id ∧ t.id ≤ s.lastTimer

namespace Tended

variable {s : Session} {d d' : List Duty} {x : Duty}

theorem perm (tended : Tended s d) (same : d.Perm d') : Tended s d' where
  filed := tended.filed
  kept e present alive := (tended.kept e present alive).congr fun _ => same.mem_iff
  drafts n g present := tended.drafts n g (same.mem_iff.mpr present)
  clocks := (same.filterMap _).nodup tended.clocks
  ticks t present := tended.ticks t (same.mem_iff.mpr present)

theorem frame (tended : Tended s d) {t : Session} (entries : t.entries = s.entries)
    (serial : t.lastSerial = s.lastSerial) (timer : t.lastTimer = s.lastTimer) : Tended t d where
  filed := by rw [entries, serial]; exact tended.filed
  kept := by rw [entries]; exact tended.kept
  drafts := by rw [serial]; exact tended.drafts
  clocks := tended.clocks
  ticks := by rw [timer]; exact tended.ticks

theorem later (tended : Tended s d) {last : Nat} (newer : s.lastTimer ≤ last) :
    Tended { s with lastTimer := last } d where
  filed := tended.filed
  kept := tended.kept
  drafts := tended.drafts
  clocks := tended.clocks
  ticks t ticking := ⟨(tended.ticks t ticking).1, Nat.le_trans (tended.ticks t ticking).2 newer⟩

theorem path_ne (tended : Tended s d) {e o : Entry} (present : e ∈ s.entries) (alive : e.live = true)
    (other : o ∈ s.entries) (alive' : o.live = true) (differ : o.serial ≠ e.serial) : o.path ≠ e.path :=
  fun equal => differ (congrArg Entry.serial (tended.filed.single o other e present alive' alive equal))

theorem update (tended : Tended s d) {n : Nat} {f : Entry → Entry} (serial : ∀ e, (f e).serial = e.serial)
    (path : ∀ e, (f e).path = e.path) (live : ∀ e, (f e).live = true → e.live = true)
    (others : ∀ o ∈ s.entries, o.live = true → o.serial ≠ n → Kept d' o)
    (self : ∀ e ∈ s.entries, e.serial = n → (f e).live = true → Kept d' (f e))
    (drafts : ∀ n g, .draft n g ∈ d' → n ≤ s.lastSerial) (clocks : (Session.clocks d').Nodup)
    (ticks : ∀ t, .timer t ∈ d' → 0 < t.id ∧ t.id ≤ s.lastTimer) : Tended (s.updateEntry n f) d' where
  filed := tended.filed.update n serial path live
  kept := by
    intro e present alive
    rcases mem_updateEntry.mp present with ⟨o, member, equal, rfl⟩ | ⟨member, differ⟩
    · exact self o member equal alive
    · exact others e member alive differ
  drafts := drafts
  clocks := clocks
  ticks := ticks

theorem tail (tended : Tended s (x :: d)) (apart : ∀ e ∈ s.entries, e.live = true → ¬ x.Concerns e) :
    Tended s d where
  filed := tended.filed
  kept e present alive := (tended.kept e present alive).tail (apart e present alive)
  drafts n g present := tended.drafts n g (.tail _ present)
  clocks := by
    have nodup := tended.clocks
    cases x with
    | timer t => exact (List.nodup_cons.mp nodup).2
    | _ => exact nodup
  ticks t present := tended.ticks t (.tail _ present)

theorem add_job (tended : Tended s d) (n : Nat) : Tended s (.job n :: d) where
  filed := tended.filed
  kept e present alive := (tended.kept e present alive).cons trivial
  drafts n g present := tended.drafts n g ((List.mem_cons.mp present).resolve_left nofun)
  clocks := tended.clocks
  ticks t present := tended.ticks t ((List.mem_cons.mp present).resolve_left nofun)

end Tended

variable {s : Session} {d : List Duty}

theorem onFired_tended {t : Timer} (tended : Tended s (.timer t :: d)) :
    Tended (s.onFired t).2 (dutiesOf (s.onFired t).1 ++ d) := by
  have unconcerned : (∀ e ∈ s.entries, e.live = true → t ≠ ⟨e.path, e.timerId⟩) → Tended s.donePending d :=
    fun apart => (tended.tail apart).frame rfl rfl rfl
  unfold onFired
  split
  · rename_i e found
    obtain ⟨present, alive, path⟩ := entry_mem found
    split
    · rename_i current
      have here : t = ⟨e.path, e.timerId⟩ := by rw [path, current]
      have gone : Duty.timer t ∉ d := fun again =>
        (List.nodup_cons.mp tended.clocks).1 (mem_clocks.mpr ⟨t, again, rfl⟩)
      have old := tended.kept e present alive
      have opened := (old.running _ (old.recorded (here ▸ List.mem_cons_self))).2.1
      refine tended.update (fun _ => rfl) (fun _ => rfl) (fun _ => id) ?_ ?_ ?_ ?_ ?_
      · intro o member alive' differ
        have apart := tended.path_ne present alive member alive' differ
        refine ((tended.kept o member alive').tail ?_).cons (Ne.symm differ)
        intro same
        exact apart ((congrArg Timer.path (here.symm.trans same)).symm)
      · intro o member equal _
        cases tended.filed.same_serial member present equal
        refine ⟨nofun, ?_, ?_, fun _ => .inl opened, fun _ => .inr (.inl List.mem_cons_self)⟩
        · intro again
          rcases List.mem_cons.mp again with equal | again
          · cases equal
          · exact absurd (here ▸ again) gone
        · intro g drafted
          rcases List.mem_cons.mp drafted with equal | drafted
          · cases equal
            exact Nat.le_refl _
          · exact old.past g (.tail _ drafted)
      · intro n g drafted
        rcases List.mem_cons.mp drafted with equal | drafted
        · cases equal
          exact tended.filed.known e present
        · exact tended.drafts n g (.tail _ drafted)
      · exact (List.nodup_cons.mp tended.clocks).2
      · intro t' again
        exact tended.ticks t' (.tail _ ((List.mem_cons.mp again).resolve_left nofun))
    · rename_i superseded
      refine unconcerned fun o member alive' same => superseded ?_
      cases tended.filed.single o member e present alive' alive (by rw [path, same])
      rw [same]
  · rename_i missing
    exact unconcerned fun o member alive' same => entry_none missing member alive' (by rw [same])

-- A parse that is stale concerns no live entry.
theorem onStore_tended {n g : Nat} (tended : Tended s (.draft n g :: d)) (f : File) :
    Tended (s.onStore n g f).2 (dutiesOf (s.onStore n g f).1 ++ d) := by
  have unconcerned : (∀ e ∈ s.entries, e.live = true → e.serial = n → e.generation ≠ g) → Tended s.donePending d :=
    fun stale => (tended.tail fun e present alive same => stale e present alive same.1.symm same.2.symm).frame rfl rfl rfl
  unfold onStore
  split
  · rename_i e found
    obtain ⟨present, rfl⟩ := serial_mem found
    split
    · rename_i current
      simp only [Bool.and_eq_true, decide_eq_true_eq] at current
      refine tended.update (fun _ => rfl) (fun _ => rfl) (fun _ => id) ?_ ?_ ?_ tended.clocks ?_
      · intro o member alive differ
        exact (tended.kept o member alive).tail fun same => differ same.1.symm
      · intro o member equal alive
        exact (tended.kept o member alive).finish (.inl ⟨_, _, rfl⟩) (some f) nofun
      · exact fun n g drafted => tended.drafts n g (.tail _ drafted)
      · exact fun t ticking => tended.ticks t (.tail _ ticking)
    · rename_i stale
      simp only [Bool.and_eq_true, decide_eq_true_eq, not_and] at stale
      refine unconcerned fun o member alive equal => ?_
      cases tended.filed.same_serial member present equal
      exact stale alive
  · rename_i missing
    refine unconcerned fun o member alive equal => ?_
    rw [← equal, serial_of_mem tended.filed member] at missing
    cases missing

theorem ensureEntry_tended (tended : Tended s d) (path : Bytes) :
    Tended (s.ensureEntry path).2 d ∧ (s.ensureEntry path).1 ∈ (s.ensureEntry path).2.entries ∧
      (s.ensureEntry path).1.live = true ∧ (s.ensureEntry path).1.path = path := by
  unfold ensureEntry
  split
  · rename_i e found
    exact ⟨tended, entry_mem found⟩
  · rename_i missing
    refine ⟨⟨?_, ?_, ?_, tended.clocks, tended.ticks⟩, by simp⟩
    · exact tended.filed.add rfl fun e present alive => entry_none missing present alive
    · intro e present alive
      rcases List.mem_append.mp present with old | new
      · exact tended.kept e old alive
      · -- Nothing is due on a new entry: its number is unused, and no timer has the number 0.
        cases List.mem_singleton.mp new
        have fresh : ∀ g, Duty.draft (s.lastSerial + 1) g ∉ d := fun g drafted => by
          have bound := tended.drafts _ g drafted
          omega
        refine ⟨nofun, ?_, fun g drafted => absurd drafted (fresh g), fun drafted => absurd drafted (fresh _), nofun⟩
        intro ticking
        have positive := (tended.ticks _ ticking).1
        exact absurd positive (Nat.lt_irrefl 0)
    · exact fun n g drafted => Nat.le_succ_of_le (tended.drafts n g drafted)

theorem claimWave_tended (wave : List Bytes) (tended : Tended s d) :
    Tended (s.claimWave wave).2 (((s.claimWave wave).1.map fun j => .job j.serial) ++ d) := by
  induction wave generalizing s d with
  | nil => exact tended
  | cons path rest ih =>
    obtain ⟨ensured, present, alive, -⟩ := ensureEntry_tended tended path
    unfold claimWave
    dsimp only
    split
    · exact ih ensured
    · have claimed : Tended ((s.ensureEntry path).2.updateEntry (s.ensureEntry path).1.serial
          fun e => { e with state := .parsing }) (.job (s.ensureEntry path).1.serial :: d) := by
        have more := ensured.add_job (s.ensureEntry path).1.serial
        refine more.update (fun _ => rfl) (fun _ => rfl) (fun _ => id) ?_ ?_ more.drafts more.clocks more.ticks
        · exact fun o member alive' _ => more.kept o member alive'
        · intro o member equal alive'
          have old := more.kept o member alive'
          exact ⟨old.running, old.recorded, old.past, old.typed, fun _ => .inl (equal ▸ List.mem_cons_self)⟩
      exact (ih claimed).perm List.perm_middle

theorem collectResult_tended {j : Job} (tended : Tended s (.job j.serial :: d)) (result : Option File) :
    Tended (s.collectResult j result).2 d := by
  -- Whatever is stored, the entry is left at rest.
  have finish : ∀ (parsed : Entry → Option File) (state : Entry → ParseState), (∀ e, state e ≠ .parsing) →
      Tended (s.updateEntry j.serial fun e => { e with parsed := parsed e, state := state e }) d := by
    intro parsed state rest
    refine tended.update (fun _ => rfl) (fun _ => rfl) (fun _ => id) ?_ ?_ ?_ tended.clocks ?_
    · exact fun o member alive differ => (tended.kept o member alive).tail (Ne.symm differ)
    · exact fun o member _ alive => (tended.kept o member alive).finish (.inr ⟨_, rfl⟩) (parsed o) (rest o)
    · exact fun n g drafted => tended.drafts n g (.tail _ drafted)
    · exact fun t ticking => tended.ticks t (.tail _ ticking)
  have settled : Tended (settleState s j.serial) d := by
    refine finish (·.parsed) (fun e => if e.parsed.isSome then .parsed else .unparsed) fun e => ?_
    split <;> nofun
  unfold collectResult
  split
  · split
    · exact finish (fun _ => some _) (fun _ => .parsed) nofun
    · exact settled
  · exact settled

theorem collectResults_tended (results : List (Job × Option File))
    (tended : Tended s ((results.map fun r => .job r.1.serial) ++ d)) : Tended (s.collectResults results).2 d := by
  induction results generalizing s with
  | nil => exact tended
  | cons r rest ih => exact ih (collectResult_tended tended r.2)

theorem onReload_tended {path : Bytes} (tended : Tended s (.refresh path :: d)) : Tended (s.onReload path).2 d := by
  unfold onReload
  dsimp only
  split
  · rename_i e found
    obtain ⟨present, alive, rfl⟩ := entry_mem found
    refine Tended.frame (s := s.updateEntry e.serial _) ?_ rfl rfl rfl
    refine tended.update (fun _ => rfl) (fun _ => rfl) (fun _ => id) ?_ ?_ ?_ tended.clocks ?_
    · intro o member alive' differ
      refine (tended.kept o member alive').tail fun same => ?_
      exact tended.path_ne present alive member alive' differ same.symm
    · intro o member equal _
      cases tended.filed.same_serial member present equal
      have old := tended.kept e present alive
      refine ⟨?_, fun ticking => old.recorded (.tail _ ticking), ?_, ?_, nofun⟩
      · intro id set
        obtain ⟨same, opened, ticking⟩ := old.running id set
        exact ⟨same, opened, (List.mem_cons.mp ticking).resolve_left nofun⟩
      · exact fun g drafted => Nat.le_succ_of_le (old.past g (.tail _ drafted))
      · intro drafted
        have bound := old.past _ (.tail _ drafted)
        exact absurd bound (Nat.not_succ_le_self _)
    · exact fun n g drafted => tended.drafts n g (.tail _ drafted)
    · exact fun t ticking => tended.ticks t (.tail _ ticking)
  · rename_i missing
    exact (tended.tail fun e present alive same => entry_none missing present alive same.symm).frame rfl rfl rfl

theorem advance_tended (env : Environment) {task : Task} (proper : task.proper = true)
    (tended : Tended s (task.duties ++ d)) :
    Tended (advance env s task).2 (dutiesOf (advance env s task).1 ++ d) := by
  cases task with
  | fired t => exact onFired_tended tended
  | parse => exact tended
  | store n g f => exact onStore_tended tended f
  | claim wave =>
    simp only [advance]
    split
    · exact tended
    · exact claimWave_tended wave tended
  | read =>
    simp only [advance, dutiesOf, Task.duties, List.map_map]
    exact tended
  | collect results failure goal =>
    have collected := collectResults_tended results tended
    simp only [advance]
    split <;> exact collected
  | retry failure goal => cases goal <;> exact tended.frame rfl rfl rfl
  | reload path => exact onReload_tended tended
  | enroll | dependents | bindings | release => exact tended.frame rfl rfl rfl
  | request contexts next =>
    cases contexts with
    | nil =>
      have free : next.duties = [] := by
        cases next <;> first | rfl | cases proper
      simp only [advance, dutiesOf, free]
      exact tended
    | cons id rest =>
      simp only [advance, requestMerge]
      split
      · exact tended
      · split
        · exact tended
        · split <;> exact tended.frame rfl rfl rfl
  | merge id =>
    simp only [advance, onMerge]
    split
    · exact tended.frame rfl rfl rfl
    · split <;> exact tended.frame rfl rfl rfl
  | publish id tree =>
    simp only [advance, onPublish]
    split
    · exact tended.frame rfl rfl rfl
    · split
      · exact tended.frame rfl rfl rfl
      · split <;> exact tended.frame rfl rfl rfl

theorem silence_tended (more : List Duty) {work : List Duty} {e : Entry} {f : Entry → Entry} {t : Session}
    (tended : Tended s (s.armed.map .timer ++ work)) (present : e ∈ s.entries) (alive : e.live = true)
    (serial : ∀ o, (f o).serial = o.serial) (path : ∀ o, (f o).path = o.path)
    (live : ∀ o, (f o).live = true → o.live = true) (generation : (f e).generation = e.generation)
    (timer : (f e).timer = none) (timerId : s.lastTimer < (f e).timerId) (reloads : ∀ x ∈ more, ∃ p, x = .refresh p)
    (seen : (f e).live = true → .refresh e.path ∈ more) (entries : t.entries = (s.updateEntry e.serial f).entries)
    (lastSerial : t.lastSerial = s.lastSerial) (lastTimer : s.lastTimer ≤ t.lastTimer) :
    Tended t (more ++ ((s.armed.filter fun t => e.timer != some t.id).map .timer ++ work)) := by
  have old := tended.kept e present alive
  have fewer : ((s.armed.filter fun t => e.timer != some t.id).map Duty.timer ++ work).Sublist
      (s.armed.map .timer ++ work) := (List.filter_sublist.map _).append (List.Sublist.refl _)
  -- Only the timer of this file is taken away.
  have lost : ∀ x ∈ s.armed.map Duty.timer ++ work, x ≠ .timer ⟨e.path, e.timerId⟩ →
      x ∈ (s.armed.filter fun t => e.timer != some t.id).map .timer ++ work := by
    intro x member differ
    rcases List.mem_append.mp member with ticking | due
    · obtain ⟨a, armed, rfl⟩ := List.mem_map.mp ticking
      refine List.mem_append_left _ (List.mem_map_of_mem (List.mem_filter.mpr ⟨armed, ?_⟩))
      simp only [bne_iff_ne, ne_eq]
      intro mine
      obtain ⟨same, -, running⟩ := old.running a.id mine
      exact differ (congrArg Duty.timer (same ▸ clocks_inj tended.clocks member running rfl))
    · exact List.mem_append_right _ due
  have new : ∀ x ∈ more ++ ((s.armed.filter fun t => e.timer != some t.id).map .timer ++ work),
      (∃ p, x = .refresh p) ∨ x ∈ s.armed.map Duty.timer ++ work := by
    intro x member
    exact (List.mem_append.mp member).imp (reloads x) fun left => fewer.subset left
  have noClocks : Session.clocks more = [] := by
    refine List.filterMap_eq_nil_iff.mpr fun x member => ?_
    obtain ⟨p, rfl⟩ := reloads x member
    rfl
  refine ⟨?_, ?_, ?_, ?_, ?_⟩
  · rw [entries, lastSerial]
    exact tended.filed.update e.serial serial path live
  · intro o member alive'
    rw [entries] at member
    rcases mem_updateEntry.mp member with ⟨o, mine, equal, rfl⟩ | ⟨member, differ⟩
    · cases tended.filed.same_serial mine present equal
      have reload := List.mem_append_left ((s.armed.filter fun t => e.timer != some t.id).map .timer ++ work) (seen alive')
      refine ⟨by simp [timer], ?_, ?_, fun _ => .inr (path e ▸ reload), fun _ => .inr (.inr (.inr (path e ▸ reload)))⟩
      · intro ticking
        rcases new _ ticking with ⟨p, equal⟩ | ticking
        · cases equal
        · have bound := (tended.ticks _ ticking).2
          dsimp only at bound
          omega
      · intro g drafted
        rw [serial] at drafted
        rcases new _ drafted with ⟨p, equal⟩ | drafted
        · cases equal
        · exact generation ▸ old.past g drafted
    · have apart := tended.path_ne present alive member alive' differ
      have same : ∀ x, (∀ p, x ≠ .refresh p) → x ≠ .timer ⟨e.path, e.timerId⟩ →
          (x ∈ s.armed.map Duty.timer ++ work ↔
            x ∈ more ++ ((s.armed.filter fun t => e.timer != some t.id).map .timer ++ work)) := by
        intro x unlike other
        refine ⟨fun member => List.mem_append_right _ (lost x member other), fun member => ?_⟩
        exact (new x member).resolve_left fun ⟨p, equal⟩ => unlike p equal
      refine (tended.kept o member alive').carry ?_ (same _ nofun ?_) (same _ nofun nofun)
        (same (.job o.serial) nofun nofun).mp ?_
      · intro g drafted
        exact (tended.kept o member alive').past g ((same (.draft o.serial g) nofun nofun).mpr drafted)
      · exact fun equal => apart (congrArg Timer.path (Duty.timer.inj equal))
      · exact fun reload => List.mem_append_right _ (lost _ reload nofun)
  · intro n g drafted
    rw [lastSerial]
    rcases new _ drafted with ⟨p, equal⟩ | drafted
    · cases equal
    · exact tended.drafts n g drafted
  · rw [clocks_append, noClocks, List.nil_append]
    exact (fewer.filterMap _).nodup tended.clocks
  · intro a ticking
    rcases new _ ticking with ⟨p, equal⟩ | ticking
    · cases equal
    · exact ⟨(tended.ticks a ticking).1, Nat.le_trans (tended.ticks a ticking).2 lastTimer⟩

theorem cancelTimer_eq (s : Session) (e : Entry) :
    s.cancelTimer e =
      { s.updateEntry e.serial fun e => { e with timer := none, timerId := s.lastTimer + 1 } with
        armed := s.armed.filter fun t => e.timer != some t.id
        lastTimer := s.lastTimer + 1
        pending := if s.armed.any (fun t => e.timer = some t.id) then s.pending - 1 else s.pending } := by
  unfold cancelTimer
  cases timer : e.timer with
  | none =>
    have all : s.armed.filter (fun t => none != some t.id) = s.armed := List.filter_eq_self.mpr fun _ _ => rfl
    simp [updateEntry, all]
  | some id =>
    have flip : (s.armed.any fun t => decide (some id = some t.id)) = s.armed.any fun t => decide (t.id = id) := by
      simp only [Option.some.injEq, eq_comm]
    rw [flip]
    by_cases running : s.armed.any (fun t => decide (t.id = id)) = true
    · simp only [running, if_true]
      rfl
    · have all : s.armed.filter (fun t => some id != some t.id) = s.armed := by
        refine List.filter_eq_self.mpr fun t armed => ?_
        simp only [bne_iff_ne, ne_eq, Option.some.injEq]
        exact fun equal => running (List.any_eq_true.mpr ⟨t, armed, decide_eq_true equal.symm⟩)
      simp only [running, all]
      rfl

theorem updateEntry_twice (s : Session) (n : Nat) (f g : Entry → Entry) (serial : ∀ e, (f e).serial = e.serial) :
    (s.updateEntry n f).updateEntry n g = s.updateEntry n (g ∘ f) := by
  simp only [updateEntry, List.map_map]
  congr 1
  refine List.map_congr_left fun e _ => ?_
  by_cases mine : e.serial = n
  · simp [mine, serial]
  · simp [mine]

theorem dropEntry_eq (s : Session) (e : Entry) :
    s.dropEntry e =
      { s.updateEntry e.serial fun e => { e with live := false, timer := none, timerId := s.lastTimer + 1 } with
        armed := s.armed.filter fun t => e.timer != some t.id
        lastTimer := s.lastTimer + 1
        pending := if s.armed.any (fun t => e.timer = some t.id) then s.pending - 1 else s.pending } := by
  unfold dropEntry
  rw [cancelTimer_eq]
  have twice := updateEntry_twice s e.serial (fun e => { e with timer := none, timerId := s.lastTimer + 1 })
    (fun e => { e with live := false }) fun _ => rfl
  simp only [updateEntry, Function.comp_def, Session.mk.injEq] at twice ⊢
  exact ⟨twice.1, by simp⟩

theorem isUsed_cancelTimer (s : Session) (e : Entry) (path : Bytes) : (s.cancelTimer e).isUsed path = s.isUsed path := by
  rw [cancelTimer_eq]
  rfl

theorem close_eq {s : Session} {path : Bytes} {e : Entry} (found : s.entry? path = some e) :
    ∃ last : Nat, s.lastTimer < last ∧ s.close path =
      { s.updateEntry e.serial fun o =>
          { o with live := o.live && s.isUsed path, text := [], isOpen := false, timer := none, timerId := last } with
        armed := s.armed.filter fun t => e.timer != some t.id
        tasks := s.tasks ++ if s.isUsed path then [.reload path] else []
        lastTimer := last
        pending := if s.armed.any (fun t => e.timer = some t.id) then s.pending - 1 else s.pending } := by
  have used (t : Session) (same : t = s.updateEntry e.serial fun e => { e with isOpen := false, text := [] }) :
      (t.cancelTimer e).isUsed path = s.isUsed path := by
    rw [isUsed_cancelTimer, same]
    rfl
  -- The timer of a file that is dropped has been stopped by then.
  have stopped : ((s.armed.filter fun t => e.timer != some t.id).any fun t => e.timer = some t.id) = false := by
    simp
  unfold close
  rw [found]
  dsimp only
  rw [used _ rfl, cancelTimer_eq]
  cases s.isUsed path with
  | true =>
    refine ⟨s.lastTimer + 1, Nat.lt_succ_self _, ?_⟩
    simp only [if_true, updateEntry, List.map_map, Session.mk.injEq, and_true]
    refine List.map_congr_left fun o _ => ?_
    by_cases mine : o.serial = e.serial <;> simp [mine]
  | false =>
    refine ⟨s.lastTimer + 2, by omega, ?_⟩
    simp only [Bool.false_eq_true, if_false, dropEntry_eq, stopped, List.filter_filter, Bool.and_self, updateEntry,
      List.map_map, Session.mk.injEq, List.append_nil, and_true]
    refine List.map_congr_left fun o _ => ?_
    by_cases mine : o.serial = e.serial <;> simp [mine]

theorem close_tended {s : Session} (tended : Tended s s.duties) (path : Bytes) :
    Tended (s.close path) (s.close path).duties := by
  cases found : s.entry? path with
  | none =>
    unfold close
    rw [found]
    exact tended
  | some e =>
    obtain ⟨present, alive, rfl⟩ := entry_mem found
    obtain ⟨last, newer, equal⟩ := close_eq found
    have silent := silence_tended (if s.isUsed e.path then [.refresh e.path] else []) (t := s.close e.path) tended
      present alive
      (f := fun o => { o with live := o.live && s.isUsed e.path, text := [], isOpen := false, timer := none, timerId := last })
      (fun _ => rfl) (fun _ => rfl) (fun _ live => (Bool.and_eq_true_iff.mp live).1) rfl rfl newer
      (by split <;> simp) (fun live => by simp [(Bool.and_eq_true_iff.mp live).2]) (by rw [equal])
      (by rw [equal]; rfl) (by rw [equal]; exact Nat.le_of_lt newer)
    refine silent.perm (List.perm_append_comm.trans ?_)
    rw [equal]
    simp only [duties, List.flatMap_append, ← List.append_assoc]
    refine List.Perm.append_left _ ?_
    split <;> exact List.Perm.refl _

theorem ensureEntry_duties (s : Session) (path : Bytes) : (s.ensureEntry path).2.duties = s.duties := by
  obtain ⟨_, _, _, equal⟩ := ensureEntry_files s path
  rw [equal]
  rfl

theorem armed_nodup {s : Session} (tended : Tended s s.duties) : (s.armed.map (·.id)).Nodup := by
  have parts := tended.clocks
  rw [duties, clocks_append] at parts
  simpa [clocks, List.filterMap_map] using (List.nodup_append.mp parts).1

-- A timer that begins anew keeps its place among the others.
theorem rearm_perm {s : Session} (tended : Tended s s.duties) {t : Timer} (running : t ∈ s.armed) :
    (s.armed.filter (· != t) ++ [t]).Perm s.armed := by
  rw [← (List.Nodup.of_map _ (armed_nodup tended)).erase_eq_filter]
  exact List.perm_append_comm.trans (List.perm_cons_erase running).symm

theorem change_tended {s : Session} (tended : Tended s s.duties) (path text : Bytes) :
    Tended (s.change path text) (s.change path text).duties := by
  obtain ⟨ensured, present, alive, located⟩ := ensureEntry_tended tended path
  rw [← ensureEntry_duties s path] at ensured
  unfold change
  generalize s.ensureEntry path = made at ensured present alive located ⊢
  obtain ⟨e, s⟩ := made
  dsimp only at ensured present alive located ⊢
  have old := ensured.kept e present alive
  subst located
  split
  · -- The running timer begins anew, and whatever was being parsed has been overtaken.
    rename_i t armed
    obtain ⟨id, set, found⟩ := Option.bind_eq_some_iff.mp armed
    have running : t ∈ s.armed := List.mem_of_find?_eq_some found
    have edited : Tended (s.updateEntry e.serial fun e => { e with text, isOpen := true, generation := e.generation + 1 })
        s.duties := by
      refine ensured.update (fun _ => rfl) (fun _ => rfl) (fun _ live => live) ?_ ?_ ensured.drafts ensured.clocks ensured.ticks
      · exact fun o member alive' _ => ensured.kept o member alive'
      · intro o member equal _
        cases ensured.filed.same_serial member present equal
        refine ⟨?_, old.recorded, fun g drafted => Nat.le_succ_of_le (old.past g drafted), fun _ => .inl rfl, ?_⟩
        · intro id' set'
          obtain ⟨same, -, ticking⟩ := old.running id' set'
          exact ⟨same, rfl, ticking⟩
        · exact fun _ => .inr (.inr (.inl (by simp [set])))
    have order := rearm_perm ensured running
    refine Tended.perm (d := s.duties) ?_ ((order.symm.map _).append_right _)
    exact edited.frame rfl rfl rfl
  · have set : Tended ({ s with lastTimer := s.lastTimer + 1 }.updateEntry e.serial fun e => { e with
          text, isOpen := true, generation := e.generation + 1, timer := some (s.lastTimer + 1),
          timerId := s.lastTimer + 1 }) (.timer ⟨e.path, s.lastTimer + 1⟩ :: s.duties) := by
      refine (ensured.later (Nat.le_succ _)).update (fun _ => rfl) (fun _ => rfl) (fun _ live => live) ?_ ?_ ?_ ?_ ?_
      · intro o member alive' differ
        have apart := ensured.path_ne present alive member alive' differ
        exact (ensured.kept o member alive').cons fun equal => apart (congrArg Timer.path equal).symm
      · intro o member equal _
        cases ensured.filed.same_serial member present equal
        refine ⟨?_, fun _ => rfl, ?_, fun _ => .inl rfl, fun _ => .inr (.inr (.inl nofun))⟩
        · intro id equal
          cases Option.some.inj equal
          exact ⟨rfl, rfl, List.mem_cons_self⟩
        · intro g drafted
          exact Nat.le_succ_of_le (old.past g ((List.mem_cons.mp drafted).resolve_left nofun))
      · exact fun n g drafted => ensured.drafts n g ((List.mem_cons.mp drafted).resolve_left nofun)
      · refine List.nodup_cons.mpr ⟨fun again => ?_, ensured.clocks⟩
        obtain ⟨t, ticking, equal⟩ := mem_clocks.mp again
        have bound := (ensured.ticks t ticking).2
        dsimp only at equal
        omega
      · intro t ticking
        rcases List.mem_cons.mp ticking with equal | ticking
        · cases equal
          exact ⟨Nat.succ_pos _, Nat.le_refl _⟩
        · exact ⟨(ensured.ticks t ticking).1, Nat.le_succ_of_le (ensured.ticks t ticking).2⟩
    refine Tended.perm (d := .timer ⟨e.path, s.lastTimer + 1⟩ :: s.duties) ?_ ?_
    · have twice := congrArg Session.entries <| updateEntry_twice s e.serial
        (fun e => { e with text, isOpen := true, generation := e.generation + 1 })
        (fun e => { e with timer := some (s.lastTimer + 1), timerId := s.lastTimer + 1 }) fun _ => rfl
      exact set.frame twice rfl rfl
    · simp only [duties, List.map_append, List.map_singleton, List.append_assoc, List.singleton_append]
      exact List.perm_middle.symm

-- A closed file has no timer, so that dropping it changes nothing else.
theorem dropEntry_closed {s : Session} (tended : Tended s s.duties) {e : Entry} (present : e ∈ s.entries)
    (alive : e.live = true) (closed : e.isOpen = false) :
    s.dropEntry e =
      { s.updateEntry e.serial fun e => { e with live := false, timer := none, timerId := s.lastTimer + 1 } with
        lastTimer := s.lastTimer + 1 } ∧ e.timer = none := by
  have idle : e.timer = none := by
    cases timer : e.timer with
    | none => rfl
    | some id =>
      have opened := ((tended.kept e present alive).running id timer).2.1
      rw [closed] at opened
      cases opened
  have armed : (s.armed.filter fun t => none != some t.id) = s.armed := List.filter_eq_self.mpr fun _ _ => rfl
  refine ⟨?_, idle⟩
  rw [dropEntry_eq, idle, armed]
  simp [updateEntry]

theorem dropEntry_tended {s : Session} (tended : Tended s s.duties) {e : Entry} (present : e ∈ s.entries)
    (alive : e.live = true) (closed : e.isOpen = false) : Tended (s.dropEntry e) (s.dropEntry e).duties := by
  obtain ⟨equal, idle⟩ := dropEntry_closed tended present alive closed
  have armed : (s.armed.filter fun t => e.timer != some t.id) = s.armed :=
    List.filter_eq_self.mpr fun t _ => by simp [idle]
  have silent := silence_tended [] (t := s.dropEntry e) tended present alive
    (f := fun e => { e with live := false, timer := none, timerId := s.lastTimer + 1 })
    (fun _ => rfl) (fun _ => rfl) nofun rfl rfl (Nat.lt_succ_self _) nofun nofun (by rw [equal])
    (by rw [equal]; rfl) (by rw [equal]; exact Nat.le_succ _)
  rw [armed] at silent
  rw [equal] at silent ⊢
  exact silent

def prune (s : Session) (paths : List Bytes) : Session :=
  paths.foldl (fun s path =>
    match s.entry? path with
    | some e => if e.isOpen || s.isUsed path then s else s.dropEntry e
    | none => s) s

theorem prune_cons (s : Session) (path : Bytes) (rest : List Bytes) :
    s.prune (path :: rest) = s.prune rest ∨
      ∃ e, s.entry? path = some e ∧ e.isOpen = false ∧ s.isUsed path = false ∧
        s.prune (path :: rest) = (s.dropEntry e).prune rest := by
  unfold prune
  rw [List.foldl_cons]
  cases found : s.entry? path with
  | none => exact .inl rfl
  | some e =>
    dsimp only
    split
    · exact .inl rfl
    · rename_i dropped
      simp only [Bool.or_eq_true, not_or, Bool.not_eq_true] at dropped
      exact .inr ⟨e, rfl, dropped.1, dropped.2, rfl⟩

theorem prune_tended {s : Session} (tended : Tended s s.duties) (paths : List Bytes) :
    Tended (s.prune paths) (s.prune paths).duties ∧
      ∃ entries last, s.prune paths = { s with entries := entries, lastTimer := last } := by
  induction paths generalizing s with
  | nil => exact ⟨tended, _, _, rfl⟩
  | cons path rest ih =>
    rcases prune_cons s path rest with equal | ⟨e, found, closed, -, equal⟩ <;> rw [equal]
    · exact ih tended
    · obtain ⟨present, alive, -⟩ := entry_mem found
      obtain ⟨pruned, entries, last, same⟩ := ih (dropEntry_tended tended present alive closed)
      refine ⟨pruned, entries, last, ?_⟩
      rw [same, (dropEntry_closed tended present alive closed).1]
      rfl

def strike (s : Session) (id : ContextId) : Session :=
  { s.updateContext id fun c => { c with removed := true } with
    enrolled := s.enrolled.filter (· != id)
    current := if s.current = some id then none else s.current }

theorem remove_cases (s : Session) (id : ContextId) :
    s.remove id = s ∨
      ∃ c, s.context? id = some c ∧ id ∈ s.enrolled ∧
        s.remove id =
          { (s.strike id).prune c.deps with events := ((s.strike id).prune c.deps).events ++ [.deleted id] } := by
  unfold remove
  cases found : s.context? id with
  | none => exact .inl rfl
  | some c =>
    by_cases enrolled : id ∈ s.enrolled
    · refine .inr ⟨c, rfl, enrolled, ?_⟩
      simp only [List.elem_eq_contains, List.contains_iff_mem.mpr enrolled, if_true]
      rfl
    · refine .inl ?_
      simp [enrolled]

theorem apply_tended {s : Session} (tended : Tended s s.duties) (c : Call) :
    Tended (c.apply s) (c.apply s).duties := by
  cases c with
  | change path text => exact change_tended tended path text
  | close path => exact close_tended tended path
  | openContext name base overlays =>
    have same : ((s.openContext name base overlays).2).duties = s.duties := by
      simp [openContext, duties, addPending, Task.duties]
    exact same ▸ tended.frame rfl rfl rfl
  | remove id =>
    rcases remove_cases s id with same | ⟨c, -, -, equal⟩
    · simpa only [Call.apply, same] using tended
    · have struck : Tended (s.strike id) (s.strike id).duties := tended.frame rfl rfl rfl
      simp only [Call.apply, equal]
      exact (prune_tended struck c.deps).1.frame rfl rfl rfl
  | loadBindings paths =>
    have same : (s.loadBindings paths).duties = s.duties := by
      simp [loadBindings, duties, addPending, Task.duties]
    exact same ▸ tended.frame rfl rfl rfl

theorem act_tended {env : Environment} {s t : Session} {a : Action} (proper : ∀ task ∈ s.tasks, task.proper = true)
    (tended : Tended s s.duties) (step : act env s a = some t) : Tended t t.duties := by
  cases a with
  | call c =>
    obtain ⟨-, rfl⟩ := act_call_iff.mp step
    exact apply_tended tended c
  | work k =>
    obtain ⟨-, task, present, rfl⟩ := act_work_iff.mp step
    have order := pick_perm present
    have taken : Tended { s with tasks := s.tasks.eraseIdx k }
        (task.duties ++ { s with tasks := s.tasks.eraseIdx k }.duties) := by
      refine (tended.frame (t := { s with tasks := s.tasks.eraseIdx k }) rfl rfl rfl).perm ?_
      exact ((order.flatMap_right Task.duties).append_left _).trans (List.perm_append_comm_assoc _ _ _)
    have went := advance_tended env (proper task (order.mem_iff.mpr List.mem_cons_self)) taken
    exact (went.perm (duties_resume env _ task)).frame rfl rfl rfl
  | fire k =>
    obtain ⟨-, u, present, rfl⟩ := act_fire_iff.mp step
    refine Tended.perm (d := s.duties) (tended.frame rfl rfl rfl) ?_
    have order := (pick_perm present).map Duty.timer
    simp only [duties, List.flatMap_append, ← List.append_assoc]
    exact (order.append_right _).trans (List.perm_append_singleton _ _).symm

end DeviceTree.Session
