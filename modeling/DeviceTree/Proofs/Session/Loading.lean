import DeviceTree.Proofs.Session.Freshness

namespace DeviceTree.Session

variable {env : Environment} {fresh : Bytes → Option File} {b s : Session}

inductive Comes (loaded fresh : Bytes → Option File) (start : List Bytes) : Bytes → Prop where
  | named {p : Bytes} (member : p ∈ start) : Comes loaded fresh start p
  | included {p q : Bytes} {f : File} (reached : Comes loaded fresh start q) (unread : loaded q = none)
      (read : fresh q = some f) (member : p ∈ includesOf f) : Comes loaded fresh start p

-- While files are loaded: those of `done` have been seen to, but for the jobs that are still to be read.
structure Loads (fresh : Bytes → Option File) (b : Session) (done : Bytes → Prop) (jobs : List Job) (s : Session) : Prop where
  filed : Filed s.entries s.lastSerial
  texts : ∀ p, s.openText? p = b.openText? p
  known : ∀ p, s.Knows p ↔ b.Knows p ∨ done p
  files : ∀ p f, s.fileAt? p = some f ↔ b.fileAt? p = some f ∨
    b.fileAt? p = none ∧ done p ∧ (∀ j ∈ jobs, j.path ≠ p) ∧ fresh p = some f
  claimed : ∀ j ∈ jobs, done j.path ∧ ∃ e, s.entry? j.path = some e ∧ e.state = .parsing ∧ e.parsed = none ∧
    j = ⟨e.path, e.serial, e.generation, e.text, e.isOpen⟩
  single : (jobs.map (·.path)).Nodup
  idle : ∀ p e, s.entry? p = some e → e.state = .parsing → ∃ j ∈ jobs, j.path = p

namespace Loads

variable {done : Bytes → Prop} {jobs : List Job}

theorem initial (filed : Filed b.entries b.lastSerial) (idle : ∀ p e, b.entry? p = some e → e.state ≠ .parsing) :
    Loads fresh b (fun _ => False) [] b where
  filed := filed
  texts _ := rfl
  known _ := (or_iff_left id).symm
  files _ _ := by simp
  claimed := nofun
  single := List.nodup_nil
  idle p e found parsing := absurd parsing (idle p e found)

theorem congr (loads : Loads fresh b done jobs s) {done' : Bytes → Prop} (same : ∀ p, done p ↔ done' p) :
    Loads fresh b done' jobs s := by
  rw [show done' = done from funext fun p => propext (same p).symm]
  exact loads

theorem perm (loads : Loads fresh b done jobs s) {jobs' : List Job} (order : jobs.Perm jobs') : Loads fresh b done jobs' s where
  filed := loads.filed
  texts := loads.texts
  known := loads.known
  files p f := by
    rw [loads.files p f]
    simp only [order.mem_iff]
  claimed j member := loads.claimed j (order.mem_iff.mpr member)
  single := (order.map _).nodup loads.single
  idle p e found parsing := by
    obtain ⟨j, member, same⟩ := loads.idle p e found parsing
    exact ⟨j, order.mem_iff.mp member, same⟩

theorem unread (loads : Loads fresh b done jobs s) {j : Job} (member : j ∈ jobs) : b.fileAt? j.path = none := by
  obtain ⟨-, e, found, -, empty, -⟩ := loads.claimed j member
  cases before : b.fileAt? j.path with
  | none => rfl
  | some f =>
    have there := (loads.files j.path f).mpr (.inl before)
    rw [fileAt_entry found, empty] at there
    cases there

-- As long as a job stands for every file, nothing has been read yet.
theorem reread (loads : Loads fresh b done jobs s) (covered : ∀ p, done p → b.fileAt? p = none → ∃ j ∈ jobs, j.path = p)
    (fresh' : Bytes → Option File) : Loads fresh' b done jobs s where
  filed := loads.filed
  texts := loads.texts
  known := loads.known
  files p f := by
    rw [loads.files p f]
    refine or_congr_right (and_congr_right fun unread => and_congr_right fun seen => and_congr_right fun alone => ?_)
    obtain ⟨j, member, same⟩ := covered p seen unread
    exact absurd same (alone j member)
  claimed := loads.claimed
  single := loads.single
  idle := loads.idle

end Loads

section Claiming

variable {done : Bytes → Prop} {jobs : List Job}

theorem Loads.ensure {path : Bytes} (loads : Loads fresh b done jobs s)
    (taken : (s.ensureEntry path).1.parsed.isSome = true ∨ (s.ensureEntry path).1.state = .parsing) :
    Loads fresh b (fun p => done p ∨ p = path) jobs (s.ensureEntry path).2 := by
  have found := entry_ensureEntry s path path
  rw [if_pos rfl] at found
  have claimed : ∀ j ∈ jobs, entry? (s.ensureEntry path).2 j.path = s.entry? j.path := by
    intro j member
    rw [entry_ensureEntry]
    split
    · rename_i mine
      rcases ensureEntry_entry s path with there | ⟨missing, -⟩
      · rw [mine, there]
      · obtain ⟨-, e, there, -⟩ := loads.claimed j member
        rw [mine, missing] at there
        cases there
    · rfl
  have idle : ∀ p e, entry? (s.ensureEntry path).2 p = some e → e.state = .parsing → ∃ j ∈ jobs, j.path = p := by
    intro p e there parsing
    rw [entry_ensureEntry] at there
    split at there
    · rename_i mine
      cases Option.some.inj there
      rcases ensureEntry_entry s path with before | ⟨-, -, -, unparsed⟩
      · exact mine ▸ loads.idle path _ before parsing
      · rw [unparsed] at parsing
        cases parsing
    · exact loads.idle p e there parsing
  refine ⟨(ensureEntry_filed loads.filed path).1, ?_, ?_, ?_, ?_, loads.single, idle⟩
  · exact fun p => (ensureEntry_openText s path p).trans (loads.texts p)
  · intro p
    rw [ensureEntry_knows, loads.known, or_assoc]
  · intro p f
    rw [ensureEntry_fileAt, loads.files]
    constructor
    · exact Or.imp_right fun ⟨unread, seen, alone, read⟩ => ⟨unread, .inl seen, alone, read⟩
    · rintro (before | ⟨unread, seen | rfl, alone, read⟩)
      · exact .inl before
      · exact .inr ⟨unread, seen, alone, read⟩
      · rcases taken with parsed | parsing
        · -- It was loaded in an earlier wave.
          obtain ⟨g, stored⟩ := Option.isSome_iff_exists.mp parsed
          have there : s.fileAt? p = some g := by rw [← ensureEntry_fileAt s p, fileAt_entry found, stored]
          rcases (loads.files p g).mp there with before | ⟨-, seen, -, -⟩
          · rw [unread] at before
            cases before
          · exact .inr ⟨unread, seen, alone, read⟩
        · obtain ⟨j, member, same⟩ := idle p _ found parsing
          exact absurd same (alone j member)
  · intro j member
    obtain ⟨seen, there⟩ := loads.claimed j member
    exact ⟨.inl seen, claimed j member ▸ there⟩

theorem Loads.claim {path : Bytes} (loads : Loads fresh b done jobs s) (free : (s.ensureEntry path).1.parsed = none)
    (still : (s.ensureEntry path).1.state ≠ .parsing) :
    Loads fresh b (fun p => done p ∨ p = path)
      (⟨path, (s.ensureEntry path).1.serial, (s.ensureEntry path).1.generation, (s.ensureEntry path).1.text,
        (s.ensureEntry path).1.isOpen⟩ :: jobs)
      ((s.ensureEntry path).2.updateEntry (s.ensureEntry path).1.serial fun e => { e with state := .parsing }) := by
  have found := entry_ensureEntry s path path
  rw [if_pos rfl] at found
  obtain ⟨filed, -, -, located⟩ := ensureEntry_filed loads.filed path
  have view : ∀ p, entry? ((s.ensureEntry path).2.updateEntry (s.ensureEntry path).1.serial fun e =>
      { e with state := .parsing }) p =
        if p = path then some { (s.ensureEntry path).1 with state := .parsing } else s.entry? p := by
    intro p
    rw [entry_updateOne (f := fun e => { e with state := .parsing }) filed found (fun _ => rfl) (fun _ => rfl) (fun _ => rfl) p,
      entry_ensureEntry]
    split <;> rfl
  -- No job stands for the path yet, for its file would be marked.
  have apart : ∀ j ∈ jobs, j.path ≠ path := by
    intro j member mine
    obtain ⟨-, e, there, parsing, -⟩ := loads.claimed j member
    rcases ensureEntry_entry s path with same | ⟨missing, -⟩
    · rw [mine, same] at there
      cases Option.some.inj there
      exact still parsing
    · rw [mine, missing] at there
      cases there
  have files : ∀ p, ((s.ensureEntry path).2.updateEntry (s.ensureEntry path).1.serial fun e =>
      { e with state := .parsing }).fileAt? p = s.fileAt? p := by
    intro p
    rw [← ensureEntry_fileAt s path p]
    exact updateEntry_fileAt _ _ p (fun _ => rfl) (fun _ => rfl) fun _ => rfl
  have unread : s.fileAt? path = none := by rw [← ensureEntry_fileAt s path, fileAt_entry found, free]
  refine ⟨filed.update _ (fun _ => rfl) (fun _ => rfl) (fun _ => id), ?_, ?_, ?_, ?_, ?_, ?_⟩
  · intro p
    rw [← loads.texts p, ← ensureEntry_openText s path p]
    exact updateEntry_openText _ _ p (fun _ => rfl) (fun _ => rfl) (fun _ => rfl) fun _ => rfl
  · intro p
    rw [← or_assoc, ← loads.known, ← ensureEntry_knows]
    exact updateEntry_knows _ _ p (fun _ => rfl) fun _ => rfl
  · intro p f
    rw [files, loads.files]
    constructor
    · rintro (before | ⟨unread', seen, alone, read⟩)
      · exact .inl before
      · refine .inr ⟨unread', .inl seen, fun j member => ?_, read⟩
        rcases List.mem_cons.mp member with rfl | old
        · rintro rfl
          rw [(loads.files path f).mpr (.inr ⟨unread', seen, alone, read⟩)] at unread
          cases unread
        · exact alone j old
    · rintro (before | ⟨unread', seen, alone, read⟩)
      · exact .inl before
      · refine .inr ⟨unread', seen.resolve_right fun mine => ?_, fun j member => alone j (.tail _ member), read⟩
        exact alone _ List.mem_cons_self mine.symm
  · intro j member
    rcases List.mem_cons.mp member with rfl | old
    · refine ⟨.inr rfl, { (s.ensureEntry path).1 with state := .parsing }, ?_, rfl, free, ?_⟩
      · rw [view, if_pos rfl]
      · simp only [located]
    · obtain ⟨seen, there⟩ := loads.claimed j old
      refine ⟨.inl seen, ?_⟩
      rw [view, if_neg (apart j old)]
      exact there
  · rw [List.map_cons, List.nodup_cons]
    refine ⟨fun again => ?_, loads.single⟩
    obtain ⟨j, member, same⟩ := List.mem_map.mp again
    exact apart j member same
  · intro p e there parsing
    rw [view] at there
    split at there
    · rename_i mine
      exact ⟨_, List.mem_cons_self, mine.symm⟩
    · obtain ⟨j, member, same⟩ := loads.idle p e there parsing
      exact ⟨j, .tail _ member, same⟩

theorem claimWave_loads (wave : List Bytes) (loads : Loads fresh b done jobs s) :
    Loads fresh b (fun p => done p ∨ p ∈ wave) ((s.claimWave wave).1 ++ jobs) (s.claimWave wave).2 := by
  induction wave generalizing s done jobs with
  | nil => exact loads.congr fun p => (or_iff_left List.not_mem_nil).symm
  | cons path rest ih =>
    have reorder : ∀ p, (done p ∨ p = path) ∨ p ∈ rest ↔ done p ∨ p ∈ path :: rest := by
      intro p
      rw [List.mem_cons, or_assoc]
    unfold claimWave
    dsimp only
    split
    · rename_i taken
      rw [Bool.or_eq_true, decide_eq_true_eq] at taken
      exact (ih (loads.ensure taken)).congr reorder
    · rename_i free
      rw [Bool.or_eq_true, decide_eq_true_eq, not_or, Bool.not_eq_true, Option.isSome_eq_false_iff,
        Option.isNone_iff_eq_none] at free
      exact ((ih (loads.claim free.1 free.2)).congr reorder).perm List.perm_middle

theorem claimWave_fileAt (filed : Filed s.entries s.lastSerial) (wave : List Bytes) (p : Bytes) :
    (s.claimWave wave).2.fileAt? p = s.fileAt? p := by
  induction wave generalizing s with
  | nil => rfl
  | cons path rest ih =>
    have ensured := (ensureEntry_filed filed path).1
    unfold claimWave
    dsimp only
    split
    · rw [ih ensured, ensureEntry_fileAt]
    · have marked := ensured.update (s.ensureEntry path).1.serial (f := fun e => { e with state := .parsing }) (fun _ => rfl)
        (fun _ => rfl) fun _ => id
      rw [ih marked, ← ensureEntry_fileAt s path p]
      exact updateEntry_fileAt _ _ p (fun _ => rfl) (fun _ => rfl) fun _ => rfl

theorem claimWave_covers (wave : List Bytes) (loads : Loads fresh b done jobs s) {p : Bytes} (member : p ∈ wave)
    (unread : s.fileAt? p = none) : ∃ j ∈ (s.claimWave wave).1 ++ jobs, j.path = p := by
  induction wave generalizing s done jobs with
  | nil => cases member
  | cons path rest ih =>
    have found := entry_ensureEntry s path path
    rw [if_pos rfl] at found
    have unread' : (s.ensureEntry path).2.fileAt? p = none := (ensureEntry_fileAt s path p).trans unread
    unfold claimWave
    dsimp only
    split
    · rename_i taken
      rw [Bool.or_eq_true, decide_eq_true_eq] at taken
      have ensured := loads.ensure taken
      rcases List.mem_cons.mp member with rfl | later
      · rw [fileAt_entry found] at unread'
        obtain ⟨j, there, same⟩ := ensured.idle p _ found (taken.resolve_left (by simp [unread']))
        exact ⟨j, List.mem_append_right _ there, same⟩
      · exact ih ensured later unread'
    · rename_i free
      rw [Bool.or_eq_true, decide_eq_true_eq, not_or, Bool.not_eq_true, Option.isSome_eq_false_iff,
        Option.isNone_iff_eq_none] at free
      rcases List.mem_cons.mp member with rfl | later
      · exact ⟨_, List.mem_cons_self, rfl⟩
      · have claimed := loads.claim free.1 free.2
        obtain ⟨j, there, same⟩ := ih claimed later (by
          rw [← unread']
          exact updateEntry_fileAt _ _ p (fun _ => rfl) (fun _ => rfl) fun _ => rfl)
        exact ⟨j, List.perm_middle.mem_iff.mp there, same⟩

end Claiming

section Collecting

variable {done : Bytes → Prop} {jobs : List Job}

theorem Loads.reads {j : Job} (loads : Loads fresh b done jobs s) (member : j ∈ jobs) :
    (readJob env j).toOption = freshOf env b.openText? j.path := by
  obtain ⟨-, e, found, -, -, made⟩ := loads.claimed j member
  have text : s.openText? j.path = if j.isOpen then some j.text else none := by
    rw [openText?, found, Option.bind_some, made]
  rw [readJob, freshOf, ← loads.texts, text]
  cases j.isOpen <;> rfl

theorem collectResult_entry {j : Job} {e : Entry} (filed : Filed s.entries s.lastSerial) (found : s.entry? j.path = some e)
    (made : j = ⟨e.path, e.serial, e.generation, e.text, e.isOpen⟩) (empty : e.parsed = none) (result : Option File) :
    ∃ state, state ≠ .parsing ∧
      Filed (s.collectResult j result).2.entries (s.collectResult j result).2.lastSerial ∧
      (∀ p, entry? (s.collectResult j result).2 p =
        if p = j.path then some { e with parsed := result, state := state } else s.entry? p) ∧
      (s.collectResult j result).1 = (result.map includesOf).getD [] := by
  have serial := serial_of_mem filed (entry_mem found).1
  have same : j.serial = e.serial := by rw [made]
  have generation : e.generation = j.generation := by rw [made]
  cases result with
  | some f =>
    have stored : s.collectResult j (some f) =
        (includesOf f, s.updateEntry e.serial fun o => { o with parsed := some f, state := .parsed }) := by
      simp only [collectResult, same, serial, generation, if_true]
    rw [stored]
    exact ⟨.parsed, nofun, filed.update _ (fun _ => rfl) (fun _ => rfl) fun _ => id,
      entry_updateOne (f := fun o => { o with parsed := some f, state := .parsed }) filed found (fun _ => rfl) (fun _ => rfl)
        fun _ => rfl, rfl⟩
  | none =>
    have settled : s.collectResult j none = ([], s.settleState e.serial) := by
      simp only [collectResult, same, serial]
    rw [settled]
    refine ⟨.unparsed, nofun, filed.update _ (fun _ => rfl) (fun _ => rfl) fun _ => id, fun p => ?_, rfl⟩
    rw [settleState, entry_updateOne (f := fun o => { o with state := if o.parsed.isSome then .parsed else .unparsed }) filed
      found (fun _ => rfl) (fun _ => rfl) (fun _ => rfl) p]
    simp [empty]

theorem Loads.collect {j : Job} (loads : Loads fresh b done (j :: jobs) s) :
    Loads fresh b done jobs (s.collectResult j (fresh j.path)).2 ∧
      (s.collectResult j (fresh j.path)).1 = ((fresh j.path).map includesOf).getD [] := by
  obtain ⟨seen, e, found, -, empty, made⟩ := loads.claimed j List.mem_cons_self
  have unread := loads.unread List.mem_cons_self
  obtain ⟨others, single⟩ := List.nodup_cons.mp loads.single
  have apart : ∀ i ∈ jobs, i.path ≠ j.path := fun i member same => others (List.mem_map.mpr ⟨i, member, same⟩)
  obtain ⟨state, rest, filed, view, more⟩ := collectResult_entry loads.filed found made empty (fresh j.path)
  refine ⟨⟨filed, fun p => ?_, fun p => ?_, fun p f => ?_, fun i member => ?_, single, fun p o there busy => ?_⟩, more⟩
  · rw [← loads.texts p, openText?, openText?, view]
    split
    · rename_i mine
      rw [mine, found]
      rfl
    · rfl
  · rw [← loads.known p, knows_iff, knows_iff, view]
    split
    · rename_i mine
      simp [mine, found]
    · rfl
  · by_cases mine : p = j.path
    · subst mine
      have there := view j.path
      rw [if_pos rfl] at there
      rw [fileAt_entry there]
      constructor
      · exact fun read => .inr ⟨unread, seen, apart, read⟩
      · rintro (before | ⟨-, -, -, read⟩)
        · rw [unread] at before
          cases before
        · exact read
    · have same : (s.collectResult j (fresh j.path)).2.fileAt? p = s.fileAt? p := by
        rw [fileAt?, view, if_neg mine, fileAt?]
      rw [same, loads.files p f]
      simp only [List.forall_mem_cons, ne_eq, Ne.symm mine, not_false_eq_true, true_and]
  · obtain ⟨seen', there⟩ := loads.claimed i (.tail _ member)
    rw [view, if_neg (apart i member)]
    exact ⟨seen', there⟩
  · rw [view] at there
    split at there
    · cases Option.some.inj there
      exact absurd busy rest
    · rename_i differ
      obtain ⟨i, member, same⟩ := loads.idle p o there busy
      rcases List.mem_cons.mp member with rfl | old
      · exact absurd same.symm differ
      · exact ⟨i, old, same⟩

theorem collectResults_loads {jobs : List Job} {result : Job → Option File} (loads : Loads fresh b done jobs s)
    (reads : ∀ j ∈ jobs, result j = fresh j.path) :
    Loads fresh b done [] (s.collectResults (jobs.map fun j => (j, result j))).2 ∧
      ∀ q, q ∈ (s.collectResults (jobs.map fun j => (j, result j))).1 ↔
        ∃ j ∈ jobs, ∃ f, fresh j.path = some f ∧ q ∈ includesOf f := by
  induction jobs generalizing s with
  | nil => exact ⟨loads, by simp [collectResults]⟩
  | cons j rest ih =>
    obtain ⟨collected, found⟩ := loads.collect
    rw [← reads j List.mem_cons_self] at collected found
    obtain ⟨all, more⟩ := ih collected fun i member => reads i (.tail _ member)
    refine ⟨all, fun q => ?_⟩
    rw [List.map_cons, collectResults, List.mem_append, found, List.exists_mem_cons_iff]
    refine or_congr ?_ (more q)
    rw [← reads j List.mem_cons_self]
    cases result j <;> simp

end Collecting

-- How far a load has come: what it leads to has been seen to, or is in the next wave, or is included by a file that
-- is still to be read.
structure Closing (loaded fresh : Bytes → Option File) (start : List Bytes) (done waits : Bytes → Prop) (wave : List Bytes) :
    Prop where
  within : ∀ p, done p ∨ p ∈ wave → Comes loaded fresh start p
  begun : ∀ p ∈ start, done p ∨ p ∈ wave
  closed : ∀ q f p, done q → loaded q = none → fresh q = some f → p ∈ includesOf f → done p ∨ p ∈ wave ∨ waits q

namespace Closing

variable {loaded fresh : Bytes → Option File} {start wave : List Bytes} {done waits : Bytes → Prop}

theorem initial (loaded fresh : Bytes → Option File) (start : List Bytes) :
    Closing loaded fresh start (fun _ => False) (fun _ => False) start where
  within _ := fun named => .named (named.resolve_left id)
  begun _ := .inr
  closed := nofun

theorem complete (closing : Closing loaded fresh start done (fun _ => False) []) (p : Bytes) :
    done p ↔ Comes loaded fresh start p := by
  refine ⟨fun seen => closing.within p (.inl seen), fun comes => ?_⟩
  induction comes with
  | named member => exact (closing.begun _ member).resolve_right List.not_mem_nil
  | included _ unread read member ih =>
    rcases closing.closed _ _ _ ih unread read member with seen | waits | never
    · exact seen
    · cases waits
    · exact never.elim

-- A wave has been claimed: those of its files that need no job have been read in an earlier one.
theorem claimed (closing : Closing loaded fresh start done (fun _ => False) wave)
    (idle : ∀ p ∈ wave, loaded p = none → (fresh p).isSome = true → ¬ waits p → done p) :
    Closing loaded fresh start (fun p => done p ∨ p ∈ wave) waits [] where
  within p seen := closing.within p (seen.resolve_right List.not_mem_nil)
  begun p member := .inl (closing.begun p member)
  closed := by
    have leads : ∀ q f p, done q → loaded q = none → fresh q = some f → p ∈ includesOf f → done p ∨ p ∈ wave :=
      fun q f p seen unread read member =>
        (closing.closed q f p seen unread read member).imp_right fun either => either.resolve_right id
    intro q f p seen unread read member
    by_cases waiting : waits q
    · exact .inr (.inr waiting)
    · rcases seen with old | new
      · exact .inl (leads q f p old unread read member)
      · exact .inl (leads q f p (idle q new unread (Option.isSome_iff_exists.mpr ⟨f, read⟩) waiting) unread read member)

theorem collected (closing : Closing loaded fresh start done waits []) (waiting : ∀ p, waits p → done p ∧ loaded p = none)
    (includes : ∀ p, p ∈ wave ↔ ∃ q, waits q ∧ ∃ f, fresh q = some f ∧ p ∈ includesOf f) :
    Closing loaded fresh start done (fun _ => False) wave where
  within := by
    rintro p (seen | member)
    · exact closing.within p (.inl seen)
    · obtain ⟨q, waits, f, read, member⟩ := (includes p).mp member
      obtain ⟨seen, unread⟩ := waiting q waits
      exact .included (closing.within q (.inl seen)) unread read member
  begun p member := .inl ((closing.begun p member).resolve_right List.not_mem_nil)
  closed := by
    intro q f p seen unread read member
    rcases closing.closed q f p seen unread read member with old | none | waits
    · exact .inl old
    · cases none
    · exact .inr (.inl ((includes p).mpr ⟨q, waits, f, read, member⟩))

end Closing

-- The roots that are given up are those whose reading has not begun when that of another one fails.
def GivesUp (env : Environment) (goal : Goal) (loaded fresh : Bytes → Option File) (start : List Bytes) (p : Bytes) : Prop :=
  p ∉ goal.begun env ∧ ∃ q ∈ start, q ∈ goal.begun env ∧ loaded q = none ∧ fresh q = none

open Classical in
noncomputable def spared (given : Bytes → Prop) (fresh : Bytes → Option File) (p : Bytes) : Option File :=
  if given p then none else fresh p

section Roots

variable {wave : List Bytes} {jobs : List Job} {isRoots : Bool} {goal : Goal}

theorem failureOf_some {j : Job} : (failureOf? env wave j).isSome = true ↔ (readJob env j).toOption = none := by
  unfold failureOf?
  cases readJob env j <;> simp [Except.toOption]

theorem stopping_some (single : (jobs.map (·.path)).Nodup) :
    (stopping? env wave jobs goal).isSome = true ↔ ∃ j ∈ jobs, j.path ∈ goal.begun env ∧ (readJob env j).toOption = none := by
  have alone : ∀ j ∈ jobs, jobs.find? (·.path = j.path) = some j := by
    intro j member
    cases found : jobs.find? (·.path = j.path) with
    | none => simpa using List.find?_eq_none.mp found j member
    | some i =>
      rw [List.inj_on_of_nodup_map single (List.mem_of_find?_eq_some found) member (by simpa using List.find?_some found)]
  simp only [stopping?, List.findSome?_isSome_iff, Option.isSome_bind, Option.any_eq_true, failureOf_some]
  constructor
  · rintro ⟨q, begun, j, found, fails⟩
    have same : j.path = q := by simpa using List.find?_some found
    exact ⟨j, List.mem_of_find?_eq_some found, same ▸ begun, fails⟩
  · rintro ⟨j, member, begun, fails⟩
    exact ⟨j.path, begun, j, alone j member, fails⟩

theorem failureIn_none (single : (jobs.map (·.path)).Nodup) :
    failureIn env wave jobs isRoots goal = none ↔ isRoots = true → ∀ j ∈ jobs, (readJob env j).toOption.isSome = true := by
  have all : jobs.findSome? (failureOf? env wave) = none ↔ ∀ j ∈ jobs, (readJob env j).toOption.isSome = true := by
    rw [List.findSome?_eq_none_iff]
    refine forall₂_congr fun j _ => ?_
    rw [← Option.not_isSome_iff_eq_none, failureOf_some, ← Ne, Option.ne_none_iff_isSome]
  cases isRoots with
  | false => simp [failureIn]
  | true =>
    simp only [failureIn, if_true, Option.or_eq_none_iff, all, forall_const, and_iff_right_iff_imp]
    intro reads
    rw [← Option.not_isSome_iff_eq_none, stopping_some single]
    rintro ⟨j, member, -, fails⟩
    have read := reads j member
    rw [fails] at read
    cases read

theorem resultOf_read (single : (jobs.map (·.path)).Nodup) (passes : failureIn env wave jobs isRoots goal = none) (j : Job) :
    resultOf env wave jobs isRoots goal j = (readJob env j).toOption := by
  refine if_neg fun given => ?_
  simp only [isGivenUp, Bool.and_eq_true] at given
  obtain ⟨⟨roots, stops⟩, -⟩ := given
  obtain ⟨i, member, -, fails⟩ := (stopping_some single).mp stops
  have read := (failureIn_none single).mp passes roots i member
  rw [fails] at read
  cases read

end Roots

inductive Gathering (env : Environment) (b : Session) (start : List Bytes) (required : Bool) (goal : Goal) (s : Session) :
    Task → Prop where
  | claim {wave : List Bytes} {isRoots : Bool} {done : Bytes → Prop} (loads : Loads (freshOf env b.openText?) b done [] s)
      (closing : Closing b.fileAt? (freshOf env b.openText?) start done (fun _ => False) wave)
      (first : isRoots = true → required = true ∧ wave = start ∧ ∀ p, ¬ done p)
      (later : isRoots = false → required = true →
        ∀ p ∈ start, b.fileAt? p = none → (freshOf env b.openText? p).isSome = true) :
      Gathering env b start required goal s (.claim wave isRoots goal)
  | read {wave : List Bytes} {jobs : List Job} {isRoots : Bool} {done : Bytes → Prop}
      (loads : Loads (freshOf env b.openText?) b done jobs s)
      (closing : Closing b.fileAt? (freshOf env b.openText?) start done (fun q => ∃ j ∈ jobs, j.path = q) [])
      (first : isRoots = true → required = true ∧ (∀ p, done p ↔ p ∈ start) ∧
        ∀ p ∈ start, b.fileAt? p = none → ∃ j ∈ jobs, j.path = p)
      (later : isRoots = false → required = true →
        ∀ p ∈ start, b.fileAt? p = none → (freshOf env b.openText? p).isSome = true) :
      Gathering env b start required goal s (.read wave jobs isRoots goal)
  | collect {wave : List Bytes} {jobs : List Job} {isRoots : Bool} {done : Bytes → Prop}
      (loads : Loads (freshOf env b.openText?) b done jobs s)
      (closing : Closing b.fileAt? (freshOf env b.openText?) start done (fun q => ∃ j ∈ jobs, j.path = q) [])
      (first : isRoots = true → required = true ∧ (∀ p, done p ↔ p ∈ start) ∧
        ∀ p ∈ start, b.fileAt? p = none → ∃ j ∈ jobs, j.path = p)
      (later : isRoots = false → required = true →
        ∀ p ∈ start, b.fileAt? p = none → (freshOf env b.openText? p).isSome = true) :
      Gathering env b start required goal s
        (.collect (jobs.map fun j => (j, resultOf env wave jobs isRoots goal j)) (failureIn env wave jobs isRoots goal) goal)

inductive Gathered (env : Environment) (b : Session) (start : List Bytes) (required : Bool) (goal : Goal) (s : Session) :
    Option LoadError → Prop where
  | all (readable : required = true → ∀ p ∈ start, b.fileAt? p = none → (freshOf env b.openText? p).isSome = true)
      (loads : Loads (freshOf env b.openText?) b (Comes b.fileAt? (freshOf env b.openText?) start) [] s) :
      Gathered env b start required goal s none
  | failed {e : LoadError} (needed : required = true)
      (unreadable : ∃ p ∈ start, b.fileAt? p = none ∧ freshOf env b.openText? p = none)
      (loads : Loads (spared (GivesUp env goal b.fileAt? (freshOf env b.openText?) start) (freshOf env b.openText?)) b
        (· ∈ start) [] s) : Gathered env b start required goal s (some e)

theorem Gathering.filing {start : List Bytes} {required : Bool} {goal : Goal} {task : Task}
    (gathering : Gathering env b start required goal s task) : task.isFiling = true := by
  cases gathering <;> rfl

def Progresses (env : Environment) (b : Session) (start : List Bytes) (required : Bool) (goal : Goal) (s : Session)
    (task : Task) : Prop :=
  ∃ next, (advance env s task).1 = some next ∧
    (Gathering env b start required goal (advance env s task).2 next ∨
      ∃ failure, next = .retry failure goal ∧ Gathered env b start required goal (advance env s task).2 failure)

section Gathering

variable {start wave : List Bytes} {required isRoots : Bool} {goal : Goal} {done : Bytes → Prop}

theorem claim_gathering (loads : Loads (freshOf env b.openText?) b done [] s)
    (closing : Closing b.fileAt? (freshOf env b.openText?) start done (fun _ => False) wave)
    (first : isRoots = true → required = true ∧ wave = start ∧ ∀ p, ¬ done p)
    (later : isRoots = false → required = true →
      ∀ p ∈ start, b.fileAt? p = none → (freshOf env b.openText? p).isSome = true) :
    Gathering env b start required goal (s.claimWave wave).2 (.read wave (s.claimWave wave).1 isRoots goal) := by
  have claimed := claimWave_loads wave loads
  rw [List.append_nil] at claimed
  have older : ∀ {p f}, b.fileAt? p = none → s.fileAt? p = some f → done p := by
    intro p f unread there
    rcases (loads.files p f).mp there with before | ⟨-, seen, -⟩
    · rw [unread] at before
      cases before
    · exact seen
  refine .read claimed (closing.claimed fun p member unread readable idle => ?_) (fun roots => ?_) later
  · obtain ⟨f, read⟩ := Option.isSome_iff_exists.mp readable
    push Not at idle
    have there := (claimed.files p f).mpr (.inr ⟨unread, .inr member, idle, read⟩)
    rw [claimWave_fileAt loads.filed] at there
    exact older unread there
  · obtain ⟨needed, rfl, nothing⟩ := first roots
    refine ⟨needed, fun p => or_iff_right (nothing p), fun p member unread => ?_⟩
    have free : s.fileAt? p = none := Option.eq_none_iff_forall_ne_some.mpr fun f there => nothing p (older unread there)
    simpa using claimWave_covers wave loads member free

theorem resultOf_spared {jobs : List Job} (loads : Loads fresh b done jobs s) (exactly : ∀ p, done p ↔ p ∈ start)
    (covered : ∀ p ∈ start, b.fileAt? p = none → ∃ j ∈ jobs, j.path = p) {j : Job} (member : j ∈ jobs) :
    resultOf env wave jobs true goal j =
      spared (GivesUp env goal b.fileAt? (freshOf env b.openText?) start) (freshOf env b.openText?) j.path := by
  have stops : (stopping? env wave jobs goal).isSome = true ↔
      ∃ q ∈ start, q ∈ goal.begun env ∧ b.fileAt? q = none ∧ freshOf env b.openText? q = none := by
    rw [stopping_some loads.single]
    constructor
    · rintro ⟨i, there, begun, fails⟩
      exact ⟨i.path, (exactly _).mp (loads.claimed i there).1, begun, loads.unread there, loads.reads there ▸ fails⟩
    · rintro ⟨q, root, begun, unread, fails⟩
      obtain ⟨i, there, rfl⟩ := covered q root unread
      exact ⟨i, there, begun, (loads.reads there).trans fails⟩
  have given : isGivenUp env wave jobs true goal j = true ↔
      GivesUp env goal b.fileAt? (freshOf env b.openText?) start j.path := by
    rw [isGivenUp, Bool.true_and, Bool.and_eq_true, stops, Bool.not_eq_true', List.elem_eq_mem, decide_eq_false_iff_not,
      and_comm, GivesUp]
  unfold resultOf spared
  rw [loads.reads member]
  by_cases gone : isGivenUp env wave jobs true goal j = true
  · rw [if_pos gone, if_pos (given.mp gone)]
  · rw [if_neg gone, if_neg (mt given.mpr gone)]

-- Only a file of the first wave can fail a load, and only if it has to be readable.
theorem collect_gathering {jobs : List Job} (loads : Loads (freshOf env b.openText?) b done jobs s)
    (closing : Closing b.fileAt? (freshOf env b.openText?) start done (fun q => ∃ j ∈ jobs, j.path = q) [])
    (first : isRoots = true → required = true ∧ (∀ p, done p ↔ p ∈ start) ∧
      ∀ p ∈ start, b.fileAt? p = none → ∃ j ∈ jobs, j.path = p)
    (later : isRoots = false → required = true →
      ∀ p ∈ start, b.fileAt? p = none → (freshOf env b.openText? p).isSome = true) :
    Progresses env b start required goal s
      (.collect (jobs.map fun j => (j, resultOf env wave jobs isRoots goal j)) (failureIn env wave jobs isRoots goal) goal) := by
  cases failed : failureIn env wave jobs isRoots goal with
  | none =>
    obtain ⟨collected, found⟩ := collectResults_loads loads fun j member =>
      (resultOf_read loads.single failed j).trans (loads.reads member)
    refine ⟨_, rfl, .inl (.claim collected ?_ nofun fun _ needed p member unread => ?_)⟩
    · refine closing.collected ?_ fun q => ?_
      · rintro _ ⟨j, there, rfl⟩
        exact ⟨(loads.claimed j there).1, loads.unread there⟩
      · rw [found]
        simp only [exists_exists_and_eq_and]
    · cases isRoots with
      | false => exact later rfl needed p member unread
      | true =>
        obtain ⟨j, there, rfl⟩ := (first rfl).2.2 p member unread
        exact loads.reads there ▸ (failureIn_none loads.single).mp failed rfl j there
  | some failure =>
    cases isRoots with
    | false => cases failed
    | true =>
      obtain ⟨needed, exactly, covered⟩ := first rfl
      have refused : ¬ ∀ j ∈ jobs, (readJob env j).toOption.isSome = true := by
        intro reads
        rw [(failureIn_none loads.single).mpr fun _ => reads] at failed
        cases failed
      push Not at refused
      obtain ⟨j, there, fails⟩ := refused
      have unstarted := loads.reread (fun p seen unread => covered p ((exactly p).mp seen) unread)
        (spared (GivesUp env goal b.fileAt? (freshOf env b.openText?) start) (freshOf env b.openText?))
      obtain ⟨collected, -⟩ := collectResults_loads unstarted fun _ => resultOf_spared loads exactly covered
      refine ⟨_, rfl, .inr ⟨_, rfl, .failed needed ⟨j.path, (exactly _).mp (loads.claimed j there).1, loads.unread there, ?_⟩
        (collected.congr exactly)⟩⟩
      rw [← loads.reads there]
      simpa using fails

theorem gathering_advance {task : Task} (gathering : Gathering env b start required goal s task) :
    Progresses env b start required goal s task := by
  cases gathering with
  | @claim wave isRoots done loads closing first later =>
    simp only [Progresses, advance]
    split
    · rename_i empty
      cases List.isEmpty_iff.mp empty
      refine ⟨_, rfl, .inr ⟨none, rfl, .all ?_ (loads.congr closing.complete)⟩⟩
      cases isRoots with
      | false => exact later rfl
      | true =>
        intro _ p member
        rw [← (first rfl).2.1] at member
        cases member
    · exact ⟨_, rfl, .inl (claim_gathering loads closing first later)⟩
  | read loads closing first later => exact ⟨_, rfl, .inl (.collect loads closing first later)⟩
  | collect loads closing first later => exact collect_gathering loads closing first later

end Gathering

end DeviceTree.Session
