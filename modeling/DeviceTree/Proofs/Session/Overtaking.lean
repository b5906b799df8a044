import DeviceTree.Proofs.Session.Deferral
import DeviceTree.Proofs.Session.Edits

namespace DeviceTree.Session

def Task.Brings (d : Draft) (f : File) : Task → Prop
  | .store n g file => d = ⟨n, g, file.path, some file.text, false⟩ ∧ f = file
  | .collect results _ _ => ∃ r ∈ results, d = r.1.draft ∧ r.2 = some f
  | _ => False

-- What a step makes of a file.
structure Succeeds (brings : Draft → File → Prop) (o e : Entry) : Prop where
  serial : e.serial = o.serial
  path : e.path = o.path
  live : e.live = true → o.live = true
  generation : o.generation ≤ e.generation
  parsed : ∀ f, e.parsed = some f →
    o.parsed = some f ∨ ∃ d, brings d f ∧ d.serial = e.serial ∧ d.generation = e.generation

structure Descends (brings : Draft → File → Prop) (s t : Session) : Prop where
  serials : s.lastSerial ≤ t.lastSerial
  entries : ∀ e ∈ t.entries, (∃ o ∈ s.entries, Succeeds brings o e) ∨ s.lastSerial < e.serial ∧ e.parsed = none

abbrev Keeps : Session → Session → Prop := Descends fun _ _ => False

variable {brings : Draft → File → Prop} {s t u : Session} {calls : List Call} {lost : List Draft}

theorem Succeeds.refl (e : Entry) : Succeeds brings e e :=
  ⟨rfl, rfl, id, Nat.le_refl _, fun _ => .inl⟩

theorem Succeeds.trans {o m e : Entry} (first : Succeeds (fun _ _ => False) o m) (second : Succeeds (fun _ _ => False) m e) :
    Succeeds (fun _ _ => False) o e where
  serial := second.serial.trans first.serial
  path := second.path.trans first.path
  live alive := first.live (second.live alive)
  generation := Nat.le_trans first.generation second.generation
  parsed f there := .inl <| by
    simpa using (second.parsed f there).imp_left (first.parsed f)

namespace Descends

theorem of_eq (entries : t.entries = s.entries) (serials : t.lastSerial = s.lastSerial) : Descends brings s t where
  serials := Nat.le_of_eq serials.symm
  entries e present := .inl ⟨e, entries ▸ present, .refl e⟩

theorem frame (descends : Descends brings s t) (entries : u.entries = t.entries) (serials : u.lastSerial = t.lastSerial) :
    Descends brings s u where
  serials := serials ▸ descends.serials
  entries := by
    rw [entries]
    exact descends.entries

theorem mono {brings' : Draft → File → Prop} (descends : Descends brings s t) (wider : ∀ d f, brings d f → brings' d f) :
    Descends brings' s t where
  serials := descends.serials
  entries e present := (descends.entries e present).imp_left fun ⟨o, old, same⟩ =>
    ⟨o, old, same.serial, same.path, same.live, same.generation, fun f stored =>
      (same.parsed f stored).imp_right fun ⟨d, brought, now⟩ => ⟨d, wider d f brought, now⟩⟩

theorem trans (first : Keeps s t) (second : Keeps t u) : Keeps s u where
  serials := Nat.le_trans first.serials second.serials
  entries e present := by
    rcases second.entries e present with ⟨m, there, later⟩ | ⟨new, empty⟩
    · rcases first.entries m there with ⟨o, old, earlier⟩ | ⟨new, empty⟩
      · exact .inl ⟨o, old, earlier.trans later⟩
      · refine .inr ⟨later.serial ▸ new, Option.eq_none_iff_forall_ne_some.mpr fun f parsed => ?_⟩
        have before := (later.parsed f parsed).resolve_right fun ⟨_, never, _⟩ => never
        rw [empty] at before
        cases before
    · exact .inr ⟨Nat.lt_of_le_of_lt first.serials new, empty⟩

theorem update (n : Nat) {f : Entry → Entry} (self : ∀ o ∈ s.entries, o.serial = n → Succeeds brings o (f o)) :
    Descends brings s (s.updateEntry n f) where
  serials := Nat.le_refl _
  entries e present := by
    rcases mem_updateEntry.mp present with ⟨o, member, equal, rfl⟩ | ⟨member, -⟩
    · exact .inl ⟨o, member, self o member equal⟩
    · exact .inl ⟨e, member, .refl e⟩

end Descends

theorem ensureEntry_descends (s : Session) (path : Bytes) : Keeps s (s.ensureEntry path).2 := by
  unfold ensureEntry
  split
  · exact .of_eq rfl rfl
  · refine ⟨Nat.le_succ _, fun e present => ?_⟩
    rcases List.mem_append.mp present with old | new
    · exact .inl ⟨e, old, .refl e⟩
    · cases List.mem_singleton.mp new
      exact .inr ⟨Nat.lt_succ_self _, rfl⟩

theorem claimWave_descends (s : Session) (wave : List Bytes) : Keeps s (s.claimWave wave).2 := by
  induction wave generalizing s with
  | nil => exact .of_eq rfl rfl
  | cons path rest ih =>
    unfold claimWave
    dsimp only
    split
    · exact (ensureEntry_descends s path).trans (ih _)
    · refine ((ensureEntry_descends s path).trans (.update _ fun o _ _ => ?_)).trans (ih _)
      exact ⟨rfl, rfl, id, Nat.le_refl _, fun _ => .inl⟩

theorem collectResult_succeeds (filed : Filed s.entries s.lastSerial) (j : Job) (result : Option File) :
    Filed (s.collectResult j result).2.entries (s.collectResult j result).2.lastSerial ∧
      (s.collectResult j result).2.lastSerial = s.lastSerial ∧
      ∀ e ∈ (s.collectResult j result).2.entries, ∃ o ∈ s.entries,
        Succeeds (fun d f => d = j.draft ∧ result = some f) o e ∧ e.generation = o.generation := by
  have settled : Filed (settleState s j.serial).entries s.lastSerial ∧ s.lastSerial = s.lastSerial ∧
      ∀ e ∈ (settleState s j.serial).entries, ∃ o ∈ s.entries,
        Succeeds (fun d f => d = j.draft ∧ result = some f) o e ∧ e.generation = o.generation := by
    refine ⟨filed.update _ (fun _ => rfl) (fun _ => rfl) (fun _ => id), rfl, fun e present => ?_⟩
    rcases mem_updateEntry.mp present with ⟨o, member, -, rfl⟩ | ⟨member, -⟩
    · exact ⟨o, member, ⟨rfl, rfl, id, Nat.le_refl _, fun _ => .inl⟩, rfl⟩
    · exact ⟨e, member, .refl e, rfl⟩
  unfold collectResult
  split
  · rename_i e f found
    obtain ⟨present, serial⟩ := serial_mem found
    split
    · rename_i current
      refine ⟨filed.update _ (fun _ => rfl) (fun _ => rfl) (fun _ => id), rfl, fun x member => ?_⟩
      rcases mem_updateEntry.mp member with ⟨o, there, equal, rfl⟩ | ⟨there, -⟩
      · cases filed.same_serial there present (equal.trans serial.symm)
        refine ⟨e, there, ⟨rfl, rfl, id, Nat.le_refl _, fun f' stored => .inr ⟨j.draft, ⟨rfl, ?_⟩, serial.symm, current.symm⟩⟩, rfl⟩
        rw [Option.some.inj stored]
      · exact ⟨x, there, .refl x, rfl⟩
    · exact settled
  · exact settled

theorem collectResults_succeeds (filed : Filed s.entries s.lastSerial) (results : List (Job × Option File)) :
    (s.collectResults results).2.lastSerial = s.lastSerial ∧
      ∀ e ∈ (s.collectResults results).2.entries, ∃ o ∈ s.entries,
        Succeeds (fun d f => ∃ r ∈ results, d = r.1.draft ∧ r.2 = some f) o e ∧ e.generation = o.generation := by
  induction results generalizing s with
  | nil => exact ⟨rfl, fun e present => ⟨e, present, .refl e, rfl⟩⟩
  | cons r rest ih =>
    obtain ⟨filed', same, first⟩ := collectResult_succeeds filed r.1 r.2
    obtain ⟨last, later⟩ := ih filed'
    refine ⟨last.trans same, fun e present => ?_⟩
    obtain ⟨m, there, second, kept⟩ := later e present
    obtain ⟨o, old, begun, kept'⟩ := first m there
    refine ⟨o, old, ⟨second.serial.trans begun.serial, second.path.trans begun.path, fun alive => begun.live (second.live alive),
      Nat.le_trans begun.generation second.generation, fun f stored => ?_⟩, kept.trans kept'⟩
    rcases second.parsed f stored with before | ⟨d, ⟨r', member, brought⟩, now⟩
    · rcases begun.parsed f before with initial | ⟨d, brought, mine, now⟩
      · exact .inl initial
      · exact .inr ⟨d, ⟨r, List.mem_cons_self, brought⟩, mine.trans second.serial.symm, now.trans kept.symm⟩
    · exact .inr ⟨d, ⟨r', List.mem_cons_of_mem _ member, brought⟩, now⟩

-- A task stores nothing but the parses that it has brought, and those only into files that they are the latest of.
theorem advance_descends (env : Environment) (filed : Filed s.entries s.lastSerial) (task : Task) :
    Descends (fun d f => task.Brings d f) s (advance env s task).2 := by
  cases task with
  | fired t =>
    simp only [advance, onFired]
    split
    · split
      · exact .update _ fun o _ _ => ⟨rfl, rfl, id, Nat.le_refl _, fun _ => .inl⟩
      · exact .of_eq rfl rfl
    · exact .of_eq rfl rfl
  | store n g f =>
    simp only [advance, onStore]
    split
    · rename_i e found
      obtain ⟨present, serial⟩ := serial_mem found
      split
      · rename_i current
        simp only [Bool.and_eq_true, decide_eq_true_eq] at current
        refine .update _ fun o member equal => ⟨rfl, rfl, id, Nat.le_refl _, fun f' stored => .inr ?_⟩
        cases filed.same_serial member present (equal.trans serial.symm)
        exact ⟨_, ⟨rfl, (Option.some.inj stored).symm⟩, serial.symm, current.2.symm⟩
      · exact .of_eq rfl rfl
    · exact .of_eq rfl rfl
  | claim wave =>
    simp only [advance]
    split
    · exact .of_eq rfl rfl
    · exact (claimWave_descends s wave).mono fun _ _ => False.elim
  | collect results failure goal =>
    obtain ⟨last, later⟩ := collectResults_succeeds filed results
    have collected : Descends (fun d f => (Task.collect results failure goal).Brings d f) s (s.collectResults results).2 :=
      ⟨Nat.le_of_eq last.symm, fun e present => .inl ((later e present).imp fun o found => ⟨found.1, found.2.1⟩)⟩
    simp only [advance]
    split <;> exact collected
  | reload path =>
    simp only [advance, onReload]
    split
    · refine (Descends.update (s := s) _ fun o _ _ => ?_).frame rfl rfl
      exact ⟨rfl, rfl, id, Nat.le_succ _, by simp⟩
    · exact .of_eq rfl rfl
  | request contexts next =>
    cases contexts with
    | nil => exact .of_eq rfl rfl
    | cons i rest =>
      rcases requestMerge_cases s i with ⟨same, -⟩ | ⟨c, -, -, -, same⟩ | ⟨c, -, -, -, same⟩ <;>
        simp only [advance, same] <;> exact .of_eq rfl rfl
  | retry failure goal => cases goal <;> exact .of_eq rfl rfl
  | merge i =>
    simp only [advance, onMerge]
    split
    · exact .of_eq rfl rfl
    · split <;> exact .of_eq rfl rfl
  | publish i tree =>
    simp only [advance, onPublish]
    split
    · exact .of_eq rfl rfl
    · split
      · exact .of_eq rfl rfl
      · split <;> exact .of_eq rfl rfl
  | parse | read | enroll | dependents | bindings | release => exact .of_eq rfl rfl

theorem prune_descends (s : Session) (paths : List Bytes) : Keeps s (s.prune paths) := by
  induction paths generalizing s with
  | nil => exact .of_eq rfl rfl
  | cons path rest ih =>
    rcases prune_cons s path rest with equal | ⟨e, -, -, -, equal⟩ <;> rw [equal]
    · exact ih s
    · refine Descends.trans ?_ (ih _)
      rw [dropEntry_eq]
      refine (Descends.update (s := s) e.serial fun o _ _ => ?_).frame rfl rfl
      exact ⟨rfl, rfl, nofun, Nat.le_refl _, fun _ => .inl⟩

theorem apply_descends (s : Session) (c : Call) : Keeps s (c.apply s) := by
  cases c with
  | change path text =>
    obtain ⟨timer, timerId, -, serial, entries⟩ := change_entries s path text
    refine ((ensureEntry_descends s path).trans (.update _ fun o _ _ => ?_)).frame entries serial
    exact ⟨rfl, rfl, id, Nat.le_succ _, fun _ => .inl⟩
  | close path =>
    cases found : s.entry? path with
    | none =>
      simp only [Call.apply, close, found]
      exact .of_eq rfl rfl
    | some e =>
      obtain ⟨last, -, equal⟩ := close_eq found
      rw [Call.apply, equal]
      refine (Descends.update (s := s) e.serial fun o _ _ => ?_).frame rfl rfl
      exact ⟨rfl, rfl, fun live => (Bool.and_eq_true_iff.mp live).1, Nat.le_refl _, fun _ => .inl⟩
  | openContext name base overlays => exact .of_eq rfl rfl
  | loadBindings paths => exact .of_eq rfl rfl
  | remove id =>
    rcases remove_cases s id with same | ⟨c, -, -, equal⟩
    · rw [Call.apply, same]
      exact .of_eq rfl rfl
    · rw [Call.apply, equal]
      have struck : Keeps s (s.strike id) := .of_eq rfl rfl
      exact (struck.trans (prune_descends _ c.deps)).frame rfl rfl

theorem act_descends {env : Environment} {a : Action} (filed : Filed s.entries s.lastSerial)
    (step : act env s a = some t) : Descends (fun d f => ∃ task ∈ s.tasks, task.Brings d f) s t := by
  cases a with
  | call c =>
    obtain ⟨-, rfl⟩ := act_call_iff.mp step
    exact (apply_descends s c).mono fun _ _ => False.elim
  | work k =>
    obtain ⟨-, task, present, rfl⟩ := act_work_iff.mp step
    have here : task ∈ s.tasks := List.mem_of_getElem? present
    have descends := advance_descends env (s := { s with tasks := s.tasks.eraseIdx k }) filed task
    have wider : Descends (fun d f => ∃ task ∈ s.tasks, task.Brings d f) _ _ :=
      descends.mono fun d f brought => ⟨task, here, brought⟩
    exact ⟨wider.serials, wider.entries⟩
  | fire k =>
    obtain ⟨-, u, -, rfl⟩ := act_fire_iff.mp step
    exact .of_eq rfl rfl

theorem Task.Brings.drafted {task : Task} {d : Draft} {f : File} (brings : task.Brings d f) : d ∈ task.drafts := by
  cases task with
  | store n g file => exact List.mem_singleton.mpr brings.1
  | collect results failure goal =>
    obtain ⟨r, member, rfl, -⟩ := brings
    exact List.mem_map_of_mem member
  | _ => cases brings

theorem Task.Brings.parse {task : Task} {d : Draft} {f : File} (brings : task.Brings d f) (honest : task.Honest lost) :
    ∃ text, IsParse f d.path text ∧ ∀ typed, d.text = some typed → text = typed := by
  cases task with
  | store n g file =>
    obtain ⟨rfl, rfl⟩ := brings
    exact ⟨f.text, honest, fun typed equal => Option.some.inj equal⟩
  | collect results failure goal =>
    obtain ⟨r, member, rfl, read⟩ := brings
    obtain ⟨text, parse, right⟩ := (honest r member).parsed f read
    refine ⟨text, parse, fun typed equal => ?_⟩
    by_cases opened : r.1.isOpen = true
    · rw [Job.draft, if_pos opened] at equal
      exact (right opened).trans (Option.some.inj equal)
    · rw [Job.draft, if_neg opened] at equal
      cases equal
  | _ => cases brings

theorem stored_latest (ran : Ran calls lost s) {env : Environment} {a : Action} (step : act env s a = some t) {e : Entry}
    (present : e ∈ t.entries) (alive : e.live = true) {f : File} (stored : e.parsed = some f) :
    (∃ o ∈ s.entries, o.serial = e.serial ∧ o.parsed = some f) ∨
      ∃ d ∈ s.drafts, d.serial = e.serial ∧ d.generation = e.generation ∧ ∃ text, IsParse f e.path text ∧
        ∀ typed, d.text = some typed → text = typed ∧ lastEdit calls e.path = some typed := by
  have minds := ran_minds ran
  rcases (act_descends minds.attended.filed step).entries e present with ⟨o, old, same⟩ | ⟨-, empty⟩
  · rcases same.parsed f stored with before | ⟨d, ⟨task, here, brought⟩, mine, now⟩
    · exact .inl ⟨o, old, same.serial.symm, before⟩
    · have due : d ∈ s.drafts := List.mem_flatMap.mpr ⟨task, here, brought.drafted⟩
      have minded := minds.attended.minded o old (same.live alive)
      have mine' : d.serial = o.serial := mine.trans same.serial
      obtain ⟨located, bound⟩ := minded.past d due mine'
      have now' : d.generation = o.generation := Nat.le_antisymm bound (now ▸ same.generation)
      obtain ⟨text, parse, right⟩ := brought.parse (minds.honest task here)
      rw [located, ← same.path] at parse
      refine .inr ⟨d, due, mine, now, text, parse, fun typed equal => ⟨right typed equal, ?_⟩⟩
      rw [same.path]
      exact (minded.latest d due mine' now').2 typed equal
  · rw [empty] at stored
    cases stored

structure Ages (s t : Session) : Prop where
  serials : s.lastSerial ≤ t.lastSerial
  entries : ∀ e ∈ t.entries, e.serial ≤ s.lastSerial →
    ∃ o ∈ s.entries, o.serial = e.serial ∧ o.generation ≤ e.generation ∧ (e.live = true → o.live = true)

theorem Descends.ages (descends : Descends brings s t) : Ages s t where
  serials := descends.serials
  entries e present known := by
    rcases descends.entries e present with ⟨o, old, same⟩ | ⟨new, -⟩
    · exact ⟨o, old, same.serial.symm, same.generation, same.live⟩
    · omega

theorem Ages.trans (first : Ages s t) (second : Ages t u) : Ages s u where
  serials := Nat.le_trans first.serials second.serials
  entries e present known := by
    obtain ⟨m, there, mine, younger, live⟩ := second.entries e present (Nat.le_trans known first.serials)
    obtain ⟨o, old, mine', younger', live'⟩ := first.entries m there (mine ▸ known)
    exact ⟨o, old, mine'.trans mine, Nat.le_trans younger' younger, fun alive => live' (live alive)⟩

theorem goes_ages (sound : Sound s) (goes : Goes s t) : Ages s t ∧ Sound t := by
  induction goes with
  | refl =>
    have same : Keeps s s := .of_eq rfl rfl
    exact ⟨same.ages, sound⟩
  | tail _ step ih =>
    obtain ⟨env, a, step⟩ := step
    exact ⟨ih.1.trans (act_descends ih.2.tended.filed step).ages, act_sound ih.2 step⟩

-- An edit overtakes every parse of its file that is under way, for good.
theorem change_overtakes (ran : Ran calls lost s) {d : Draft} (due : d ∈ s.drafts) (text : Bytes)
    (goes : Goes (s.change d.path text) t) {e : Entry} (present : e ∈ t.entries) (alive : e.live = true)
    (mine : d.serial = e.serial) : d.generation < e.generation := by
  have sound := ran_sound ran
  have attended := (ran_minds ran).attended
  have ensured := ensureEntry_attended attended d.path
  obtain ⟨-, there, live, located⟩ := ensureEntry_filed attended.filed d.path
  obtain ⟨timer, timerId, -, serial, entries⟩ := change_entries s d.path text
  have changed : Sound (s.change d.path text) := apply_sound sound (.change d.path text)
  have ages := (goes_ages changed goes).1
  have drawn : d.serial ≤ (s.change d.path text).lastSerial := by
    rw [serial]
    exact ensured.drawn d due
  obtain ⟨o, old, mine', younger, live'⟩ := ages.entries e present (mine ▸ drawn)
  rw [entries] at old
  refine Nat.lt_of_lt_of_le ?_ younger
  generalize s.ensureEntry d.path = made at ensured there live located old
  obtain ⟨x, u⟩ := made
  rcases mem_updateEntry.mp old with ⟨y, member, equal, rfl⟩ | ⟨member, differ⟩
  · exact Nat.lt_succ_of_le ((ensured.minded y member (live' alive)).past d due (mine.trans mine'.symm)).2
  · -- The parse belongs to the entry of its path, which is the one that was changed.
    have path := ((ensured.minded o member (live' alive)).past d due (mine.trans mine'.symm)).1
    exact absurd (congrArg Entry.serial (ensured.filed.single o member x there (live' alive) live (path.symm.trans located.symm))) differ

-- A step of a task takes on or gives back at most one unit of work.
theorem advance_pending (env : Environment) (s : Session) (task : Task) :
    (advance env s task).2.pending = s.pending ∨ (advance env s task).2.pending = s.pending + 1 ∨
      (advance env s task).2.pending = s.pending - 1 := by
  cases task with
  | fired t =>
    simp only [advance, onFired]
    split
    · split
      · exact .inl rfl
      · exact .inr (.inr rfl)
    · exact .inr (.inr rfl)
  | store n g f =>
    simp only [advance, onStore]
    split
    · split
      · exact .inl rfl
      · exact .inr (.inr rfl)
    · exact .inr (.inr rfl)
  | claim wave =>
    simp only [advance]
    split
    · exact .inl rfl
    · exact .inl (claimWave_pending s wave)
  | collect results =>
    simp only [advance]
    split <;> exact .inl (collectResults_pending s results)
  | reload path =>
    simp only [advance, onReload]
    split <;> exact .inr (.inl rfl)
  | request contexts next =>
    cases contexts with
    | nil => exact .inl rfl
    | cons i rest =>
      have asks : (advance env s (.request (i :: rest) next)).2 = s.requestMerge i := rfl
      rcases requestMerge_cases s i with ⟨same, -⟩ | ⟨c, -, -, -, same⟩ | ⟨c, -, -, -, same⟩ <;> rw [asks, same]
      · exact .inl rfl
      · exact .inl rfl
      · exact .inr (.inl rfl)
  | retry failure goal => cases goal <;> exact .inl rfl
  | merge i =>
    simp only [advance, onMerge]
    split
    · exact .inr (.inr rfl)
    · split
      · exact .inr (.inr rfl)
      · exact .inl rfl
  | publish i tree =>
    simp only [advance, onPublish]
    split
    · exact .inl rfl
    · split
      · exact .inr (.inr rfl)
      · split
        · exact .inr (.inr rfl)
        · exact .inl rfl
  | parse | read | enroll | dependents | bindings => exact .inl rfl
  | release => exact .inr (.inr rfl)

theorem apply_pending (tended : Tended s s.duties) (c : Call) :
    (c.apply s).pending = s.pending ∨ (c.apply s).pending = s.pending + 1 ∨ (c.apply s).pending = s.pending - 1 := by
  cases c with
  | change path text =>
    have counted := ensureEntry_pending s path
    simp only [Call.apply, change]
    split
    · exact .inl counted
    · exact .inr (.inl (congrArg (· + 1) counted))
  | close path =>
    cases found : s.entry? path with
    | none =>
      refine .inl ?_
      simp only [Call.apply, close, found]
    | some e =>
      obtain ⟨last, -, equal⟩ := close_eq found
      rw [Call.apply, equal]
      dsimp only
      split
      · exact .inr (.inr rfl)
      · exact .inl rfl
  | openContext name base overlays => exact .inr (.inl rfl)
  | loadBindings paths => exact .inr (.inl rfl)
  | remove id =>
    rcases remove_cases s id with same | ⟨c, -, -, equal⟩
    · rw [Call.apply, same]
      exact .inl rfl
    · have struck : Tended (s.strike id) (s.strike id).duties := tended.frame rfl rfl rfl
      obtain ⟨-, entries, last, pruned⟩ := prune_tended struck c.deps
      rw [Call.apply, equal, pruned]
      exact .inl rfl

theorem act_pending {env : Environment} {a : Action} (sound : Sound s) (step : act env s a = some t) :
    t.pending = s.pending ∨ t.pending = s.pending + 1 ∨ t.pending = s.pending - 1 := by
  cases a with
  | call c =>
    obtain ⟨-, rfl⟩ := act_call_iff.mp step
    exact apply_pending sound.tended c
  | work k =>
    obtain ⟨-, task, -, rfl⟩ := act_work_iff.mp step
    exact advance_pending env { s with tasks := s.tasks.eraseIdx k } task
  | fire k =>
    obtain ⟨-, u, -, rfl⟩ := act_fire_iff.mp step
    exact .inl rfl

-- With no work outstanding there is nothing left that could parse a file, so it has been parsed or given up.
theorem parsed_of_idle (ran : Ran calls lost s) (idle : s.pending = 0) {path text : Bytes}
    (shown : editorText calls path = some text) :
    ∃ e, s.entry? path = some e ∧ ((∃ f, e.parsed = some f ∧ IsParse f path text) ∨
      e.parsed = none ∧ ⟨e.serial, e.generation, path, some text, true⟩ ∈ lost) := by
  have sound := ran_sound ran
  have attended := (ran_minds ran).attended
  obtain ⟨armed, reloads⟩ := reloads_of_idle sound.held idle
  have noDrafts : s.drafts = [] := by
    refine List.flatMap_eq_nil_iff.mpr fun task member => ?_
    obtain ⟨p, rfl⟩ := reloads task member
    rfl
  have noWaits : s.waits = [] := by
    refine List.flatMap_eq_nil_iff.mpr fun task member => ?_
    obtain ⟨p, rfl⟩ := reloads task member
    rfl
  obtain ⟨e, present, alive, rfl⟩ := attended.listed path (by simp [shown])
  have minded := attended.minded e present alive
  have text_eq : e.isOpen = true ∧ e.text = text := by
    have same := minded.shown.symm.trans shown
    split at same
    · rename_i opened
      exact ⟨opened, Option.some.inj same⟩
    · cases same
  have noTimer : e.timer = none := by
    refine Option.eq_none_iff_forall_ne_some.mpr fun id set => ?_
    have due := ((sound.tended.kept e present alive).running id set).2.2
    rw [duties, armed] at due
    obtain ⟨task, member, there⟩ := List.mem_flatMap.mp due
    obtain ⟨p, rfl⟩ := reloads task member
    cases List.mem_singleton.mp there
  refine ⟨e, entry_of_mem attended.filed present alive, ?_⟩
  rcases minded.seen text_eq.1 with parsed | timer | ⟨d, due, -⟩ | ⟨empty, there | given⟩
  · exact .inl (text_eq.2 ▸ parsed)
  · exact absurd noTimer timer
  · rw [noDrafts] at due
    cases due
  · rw [noWaits] at there
    cases there
  · refine .inr ⟨empty, ?_⟩
    rw [Entry.draft, text_eq.2] at given
    exact given

theorem edits_kept (ran : Ran calls lost s) :
    -- What a step stores of the editor's texts is the parse of the last one.
    (∀ env a t, act env s a = some t → ∀ e ∈ t.entries, e.live = true → ∀ f, e.parsed = some f →
      (∃ o ∈ s.entries, o.serial = e.serial ∧ o.parsed = some f) ∨
        ∃ d ∈ s.drafts, d.serial = e.serial ∧ d.generation = e.generation ∧ ∃ text, IsParse f e.path text ∧
          ∀ typed, d.text = some typed → text = typed ∧ lastEdit calls e.path = some typed) ∧
    -- A parse that is under way when its file is edited never again has the generation that it could be stored with.
    (∀ d ∈ s.drafts, ∀ text t, Goes (s.change d.path text) t → ∀ e ∈ t.entries, e.live = true → d.serial = e.serial →
      d.generation < e.generation) ∧
    -- The count of outstanding work is exact, and falls by one unit at a time.
    (s.pending = s.armed.length + s.tasks.countP Task.counted ∧
      (∀ id, s.tasks.countP (·.loops id) = if s.isMerging id then 1 else 0) ∧
      ∀ env a t, act env s a = some t → 0 ≤ t.pending ∧ (t.pending < s.pending → s.pending = t.pending + 1)) ∧
    -- At rest, a file that is open has been parsed as it is, or else has not been parsed at all and was last given up.
    (s.pending = 0 → ∀ path text, editorText calls path = some text →
      ∃ e, s.entry? path = some e ∧ ((∃ f, e.parsed = some f ∧ IsParse f path text) ∨
        e.parsed = none ∧ ⟨e.serial, e.generation, path, some text, true⟩ ∈ lost)) := by
  have sound := ran_sound ran
  refine ⟨?_, ?_, ⟨sound.held.balance, sound.held.loops, ?_⟩, ?_⟩
  · exact fun env a t step e present alive f stored => stored_latest ran step present alive stored
  · exact fun d due text t goes e present alive mine => change_overtakes ran due text goes present alive mine
  · intro env a t step
    have balance := (act_sound sound step).held.balance
    have counted := act_pending sound step
    exact ⟨by omega, by omega⟩
  · exact fun idle path text shown => parsed_of_idle ran idle shown

def callsOf (calls : List Call) : List Action → List Call
  | [] => calls
  | .call c :: rest => callsOf (c :: calls) rest
  | _ :: rest => callsOf calls rest

def lossesOf (env : Environment) (lost : List Draft) (s : Session) : List Action → List Draft
  | [] => lost
  | a :: rest =>
    ((act env s a).map fun t => lossesOf env (losses env s a ++ lost) t rest).getD lost

theorem ran_run {env : Environment} {actions : List Action} (ran : Ran calls lost s)
    (run : actions.foldlM (act env) s = some t) : Ran (callsOf calls actions) (lossesOf env lost s actions) t := by
  induction actions generalizing calls lost s with
  | nil =>
    cases Option.some.inj run
    exact ran
  | cons a rest ih =>
    rw [List.foldlM_cons] at run
    obtain ⟨u, step, later⟩ := Option.bind_eq_some_iff.mp run
    rw [lossesOf, step]
    cases a with
    | call c =>
      obtain ⟨running, rfl⟩ := act_call_iff.mp step
      exact ih (.call c running ran) later
    | work k => exact ih (.work env k ran step) later
    | fire k => exact ih (.fire env k ran step) later

def typeTwice : List Action :=
  [.call (.change (utf8 "/a.dts") (utf8 "/ { };")), .fire 0, .work 0, .call (.change (utf8 "/a.dts") (utf8 "/ { b; };"))]

def finishTyping : List Action := [.work 0, .work 0, .fire 0] ++ List.replicate 9 (.work 0)

theorem typing_kept :
    (∃ s lost d e, Ran [.change (utf8 "/a.dts") (utf8 "/ { };")] lost s ∧ d ∈ s.drafts ∧
      e ∈ (s.change d.path (utf8 "/ { b; };")).entries ∧ e.live = true ∧ d.serial = e.serial ∧ d.generation < e.generation) ∧
    ∃ s e f, Ran [.change (utf8 "/a.dts") (utf8 "/ { b; };"), .change (utf8 "/a.dts") (utf8 "/ { };")] [] s ∧ s.pending = 0 ∧
      s.entry? (utf8 "/a.dts") = some e ∧ e.parsed = some f ∧ IsParse f (utf8 "/a.dts") (utf8 "/ { b; };") := by
  constructor
  · have outcome : (((typeTwice.take 3).foldlM (act header) empty).map fun s => s.drafts.any fun d =>
        (s.change d.path (utf8 "/ { b; };")).entries.any fun e => e.live && d.serial = e.serial) = some true := by decide +kernel
    obtain ⟨s, run, found⟩ := Option.map_eq_some_iff.mp outcome
    obtain ⟨d, due, found⟩ := List.any_eq_true.mp found
    obtain ⟨e, present, found⟩ := List.any_eq_true.mp found
    simp only [Bool.and_eq_true, decide_eq_true_eq] at found
    have ran : Ran [.change (utf8 "/a.dts") (utf8 "/ { };")] _ s := ran_run .start run
    have overtaken := (edits_kept ran).2.1 d due (utf8 "/ { b; };") _ .refl e present found.1 found.2
    exact ⟨s, _, d, e, ran, due, present, found.1, found.2, overtaken⟩
  · have outcome : (((typeTwice ++ finishTyping).foldlM (act header) empty).map (·.pending)) = some 0 := by decide +kernel
    have none : (lossesOf header [] empty (typeTwice ++ finishTyping)).isEmpty = true := by decide +kernel
    obtain ⟨s, run, idle⟩ := Option.map_eq_some_iff.mp outcome
    have ran : Ran [.change (utf8 "/a.dts") (utf8 "/ { b; };"), .change (utf8 "/a.dts") (utf8 "/ { };")] _ s := ran_run .start run
    rw [List.isEmpty_iff.mp none] at ran
    obtain ⟨e, entry, ⟨f, parsed, parse⟩ | ⟨-, given⟩⟩ := (edits_kept ran).2.2.2 idle (utf8 "/a.dts") (utf8 "/ { b; };") rfl
    · exact ⟨s, e, f, ran, idle, entry, parsed, parse⟩
    · cases given

-- A board with a part of its own. Once a root is missing, no other is begun.
def parted : Environment :=
  ⟨.ofTable [(utf8 "/a.dts", utf8 "#include \"p.dtsi\"\n"), (utf8 "/p.dtsi", [])], [], fun _ => [utf8 "/missing.dts"]⟩

-- The part is closed, and edited before it is read anew; reading it anew overtakes the edit's parse, and leaves the
-- part to a context that cannot be opened.
def dropEdit : List Action :=
  [.call (.openContext [] (utf8 "/a.dts") [])] ++ List.replicate 16 (.work 0) ++
    [.call (.close (utf8 "/p.dtsi")), .call (.change (utf8 "/p.dtsi") (utf8 "/ { };")), .fire 0,
      .work 1, .work 1, .work 1, .work 0,
      .call (.openContext [] (utf8 "/missing.dts") [utf8 "/p.dtsi"]), .work 1, .work 1] ++ List.replicate 17 (.work 0)

theorem edit_given_up : ¬ ∀ (calls : List Call) (lost : List Draft) (s : Session), Ran calls lost s → s.pending = 0 →
    ∀ path text, editorText calls path = some text →
      ∃ e f, s.entry? path = some e ∧ e.parsed = some f ∧ IsParse f path text := by
  intro kept
  have outcome : ((dropEdit.foldlM (act parted) empty).map fun s => (s.pending, (s.fileAt? (utf8 "/p.dtsi")).isNone)) =
      some (0, true) := by decide +kernel
  obtain ⟨s, run, equal⟩ := Option.map_eq_some_iff.mp outcome
  simp only [Prod.mk.injEq, Option.isNone_iff_eq_none] at equal
  obtain ⟨e, f, entry, parsed, -⟩ := kept _ _ s (ran_run .start run) equal.1 (utf8 "/p.dtsi") (utf8 "/ { };") rfl
  have empty := equal.2
  rw [fileAt_entry entry, parsed] at empty
  cases empty

end DeviceTree.Session
