import DeviceTree.Proofs.Expansion
import DeviceTree.Proofs.Session.Serving

namespace DeviceTree.Session

variable {env : Environment} {b s t : Session}

theorem mem_includesOf {p q : Bytes} {f : File} (parsed : IsParsed p f) :
    q ∈ includesOf f ↔ ∃ i, .include i ∈ f.document.items ∧ i.isHeader = false ∧ f.target? i = some q := by
  obtain ⟨source, dirs, text, rfl⟩ := parsed
  have resolved : ∀ i : ResolvedInclude, i ∈ (File.ofText source dirs p text).includes ↔
      .include i.decl ∈ (Document.parse text).items ∧ i.target = File.resolve source dirs p i.decl := by
    intro i
    simp only [File.ofText, List.mem_filterMap]
    constructor
    · rintro ⟨item, member, made⟩
      split at made
      · cases Option.some.inj made
        exact ⟨member, rfl⟩
      · cases made
    · rintro ⟨member, target⟩
      refine ⟨_, member, ?_⟩
      dsimp only
      rw [← target]
  have target : ∀ i, .include i ∈ (Document.parse text).items →
      (File.ofText source dirs p text).target? i = File.resolve source dirs p i := by
    intro i member
    have there := (resolved ⟨i, File.resolve source dirs p i⟩).mpr ⟨member, rfl⟩
    cases found : (File.ofText source dirs p text).includes.find? (·.decl = i) with
    | none =>
      have missing := List.find?_eq_none.mp found _ there
      simp at missing
    | some j =>
      have same : j.decl = i := by simpa using List.find?_some found
      rw [File.target?, found, Option.bind_some, ((resolved j).mp (List.mem_of_find?_eq_some found)).2, same]
  simp only [includesOf, List.mem_filterMap]
  constructor
  · rintro ⟨i, member, told⟩
    obtain ⟨there, leads⟩ := (resolved i).mp member
    split at told
    · cases told
    · rename_i header
      exact ⟨i.decl, there, by simpa using header, by rw [target i.decl there, ← leads, told]⟩
  · rintro ⟨i, member, header, leads⟩
    refine ⟨⟨i, File.resolve source dirs p i⟩, (resolved _).mpr ⟨member, rfl⟩, ?_⟩
    rw [target i member] at leads
    simp [header, leads]

theorem includes_iff {look : Bytes → Option File} (parsed : ∀ p f, look p = some f → IsParsed p f) {p q : Bytes} :
    Merge.Includes look p q ↔ ∃ f, look p = some f ∧ q ∈ includesOf f := by
  constructor
  · rintro ⟨f, i, found, member, header, target⟩
    exact ⟨f, found, (mem_includesOf (parsed p f found)).mpr ⟨i, member, header, target⟩⟩
  · rintro ⟨f, found, member⟩
    obtain ⟨i, there, header, target⟩ := (mem_includesOf (parsed p f found)).mp member
    exact ⟨f, i, found, there, header, target⟩

theorem fileAt_table (filed : Filed s.entries s.lastSerial) (parsed : ∀ p f, s.fileAt? p = some f → IsParsed p f) (p : Bytes) :
    Merge.fileAt? s.parsedFiles p = s.fileAt? p := by
  have listed : ∀ f, f ∈ s.parsedFiles ↔ ∃ q, s.fileAt? q = some f := by
    intro f
    simp only [parsedFiles, List.mem_filterMap, List.mem_filter]
    constructor
    · rintro ⟨e, ⟨present, alive⟩, stored⟩
      exact ⟨e.path, by rw [fileAt_entry (entry_of_mem filed present alive), stored]⟩
    · rintro ⟨q, found⟩
      obtain ⟨e, entry, stored⟩ := Option.bind_eq_some_iff.mp found
      obtain ⟨present, alive, -⟩ := entry_mem entry
      exact ⟨e, ⟨present, alive⟩, stored⟩
  have located : ∀ q f, s.fileAt? q = some f → f.path = q := by
    intro q f found
    obtain ⟨source, dirs, text, rfl⟩ := parsed q f found
    rfl
  cases found : Merge.fileAt? s.parsedFiles p with
  | some f =>
    obtain ⟨q, there⟩ := (listed f).mp (List.mem_of_find?_eq_some found)
    rw [← Merge.path_of_fileAt found, located q f there, there]
  | none =>
    cases there : s.fileAt? p with
    | none => rfl
    | some f =>
      have missing := List.find?_eq_none.mp found f ((listed f).mpr ⟨p, there⟩)
      simp [located p f there] at missing

def Context.sees (s : Session) (c : Context) (p : Bytes) : Option File := if p ∈ c.deps then s.fileAt? p else none

-- What a context uses: its roots, and the loaded files that they lead to by way of such files.
structure Context.Depends (s : Session) (c : Context) : Prop where
  roots : ∀ p ∈ c.roots, p ∈ c.deps
  known : ∀ p ∈ c.deps, s.Knows p
  loaded : ∀ p ∈ c.deps, p ∈ c.roots ∨ (s.fileAt? p).isSome = true
  reached : ∀ p ∈ c.deps, Merge.Reaches (c.sees s) c.roots p

namespace Context.Depends

variable {c : Context}

-- Files may be loaded meanwhile, as long as those that were used stay what they were.
theorem mono (depends : c.Depends s) (known : ∀ p ∈ c.deps, t.Knows p)
    (files : ∀ p ∈ c.deps, ∀ f, s.fileAt? p = some f → t.fileAt? p = some f) : c.Depends t where
  roots := depends.roots
  known := known
  loaded p member := by
    refine (depends.loaded p member).imp_right fun loaded => ?_
    obtain ⟨f, found⟩ := Option.isSome_iff_exists.mp loaded
    rw [files p member f found]
    rfl
  reached p member := by
    obtain ⟨r, root, led⟩ := depends.reached p member
    refine ⟨r, root, Relation.ReflTransGen.mono ?_ _ _ led⟩
    rintro q o ⟨f, i, seen, rest⟩
    unfold Context.sees at seen
    split at seen
    · rename_i there
      exact ⟨f, i, by rw [Context.sees, if_pos there, files q there f seen], rest⟩
    · cases seen

end Context.Depends

theorem mem_renewed_deps (filed : Filed t.entries t.lastSerial) (parsed : ∀ p f, t.fileAt? p = some f → IsParsed p f)
    (c : Context) (p : Bytes) :
    p ∈ (c.renewed t).deps ↔ p ∈ c.roots ∨ Merge.Reaches t.fileAt? c.roots p ∧ (t.fileAt? p).isSome = true := by
  have table : Merge.fileAt? t.parsedFiles = t.fileAt? := funext (fileAt_table filed parsed)
  rw [← table, ← Tree.mem_merge_files c.name c.roots t.parsedFiles t.bindings p]
  exact List.mem_append

theorem renewed_depends (filed : Filed t.entries t.lastSerial) (parsed : ∀ p f, t.fileAt? p = some f → IsParsed p f)
    {c : Context} (roots : ∀ p ∈ c.roots, t.Knows p) : (c.renewed t).Depends t := by
  have deps := mem_renewed_deps filed parsed c
  refine ⟨fun p root => (deps p).mpr (.inl root), ?_, ?_, ?_⟩
  · intro p member
    rcases (deps p).mp member with root | ⟨-, loaded⟩
    · exact roots p root
    · obtain ⟨f, found⟩ := Option.isSome_iff_exists.mp loaded
      exact knows_of_fileAt found
  · exact fun p member => ((deps p).mp member).imp_right And.right
  · intro p member
    rcases (deps p).mp member with root | ⟨⟨r, root, led⟩, -⟩
    · exact ⟨p, root, .refl⟩
    · -- Every file on the way was entered by the merge.
      refine ⟨r, root, ?_⟩
      clear member
      induction led with
      | refl => exact .refl
      | @tail q p prior step ih =>
        obtain ⟨f, i, found, rest⟩ := step
        have entered : q ∈ (c.renewed t).deps := (deps q).mpr (.inr ⟨⟨r, root, prior⟩, by rw [found]; rfl⟩)
        exact ih.tail ⟨f, i, by rw [Context.sees, if_pos entered, found], rest⟩

-- Nothing is left to do, and no merge is outstanding.
structure AtRest (s : Session) : Prop where
  sound : Sound s
  tasks : s.tasks = []
  armed : s.armed = []
  clean : ∀ id c, s.context? id = some c → c.dirty = false ∧ c.merging = false
  listed : s.enrolled.Nodup
  parsed : ∀ p f, s.fileAt? p = some f → IsParsed p f
  typed : ∀ p, (s.openText? p).isSome = true → (s.fileAt? p).isSome = true
  depends : ∀ id ∈ s.enrolled, ∀ c, s.context? id = some c → c.Depends s

theorem AtRest.cleans {n : ContextId} {new : Context} (rest : AtRest s)
    (contexts : ∀ id, t.context? id = if id = n then some new else s.context? id)
    (clean : new.dirty = false ∧ new.merging = false) : ∀ id c, t.context? id = some c → c.dirty = false ∧ c.merging = false := by
  intro id c found
  rw [contexts] at found
  split at found
  · cases Option.some.inj found
    exact clean
  · exact rest.clean id c found

theorem calm_of_sound (sound : Sound s) (idle : s.duties = []) : ∀ e ∈ s.entries, e.live = true → e.isBusy = false := by
  intro e present alive
  have kept := sound.tended.kept e present alive
  rw [idle] at kept
  have timer : e.timer = none := by
    cases set : e.timer with
    | none => rfl
    | some i => exact absurd (kept.running i set).2.2 List.not_mem_nil
  have state : e.state ≠ .parsing := by
    intro parsing
    rcases kept.outstanding parsing with due | due | set | due
    · cases due
    · cases due
    · exact set timer
    · cases due
  simp [Entry.isBusy, timer, state]

theorem AtRest.duties (rest : AtRest s) : s.duties = [] := by
  rw [Session.duties, rest.tasks, rest.armed]
  rfl

theorem AtRest.idle (rest : AtRest s) : ∀ p e, s.entry? p = some e → e.state ≠ .parsing := by
  intro p e found parsing
  obtain ⟨present, alive, -⟩ := entry_mem found
  have calm := calm_of_sound rest.sound rest.duties e present alive
  simp [Entry.isBusy, parsing] at calm

open Classical in
noncomputable def gained (files fresh : Bytes → Option File) (done : Bytes → Prop) (p : Bytes) : Option File :=
  if files p = none ∧ done p then fresh p else files p

theorem gained_some {files fresh : Bytes → Option File} {done : Bytes → Prop} {p : Bytes} {f : File} :
    gained files fresh done p = some f ↔ files p = some f ∨ files p = none ∧ done p ∧ fresh p = some f := by
  unfold gained
  split
  · rename_i both
    simp [both]
  · rename_i either
    constructor
    · exact .inl
    · rintro (there | ⟨unread, seen, -⟩)
      · exact there
      · exact absurd ⟨unread, seen⟩ either

theorem gained_keeps {files fresh : Bytes → Option File} {done : Bytes → Prop} {p : Bytes} {f : File} (found : files p = some f) :
    gained files fresh done p = some f :=
  gained_some.mpr (.inl found)

structure Gains (env : Environment) (words : Bytes → Option Bytes) (table : Bytes → Option File) (names done : Bytes → Prop)
    (t : Session) : Prop where
  texts : ∀ p, t.openText? p = words p
  files : ∀ p, t.fileAt? p = gained table (freshOf env words) done p
  known : ∀ p, t.Knows p ↔ names p ∨ done p

-- A file that was not there before has been seen to, and is as it would be parsed now.
theorem Gains.added {words : Bytes → Option Bytes} {table : Bytes → Option File} {names done : Bytes → Prop} {p : Bytes}
    {f : File} (gains : Gains env words table names done t) (absent : table p = none) (there : t.fileAt? p = some f) :
    done p ∧ freshOf env words p = some f := by
  rw [gains.files] at there
  rcases gained_some.mp there with before | ⟨-, seen, read⟩
  · rw [absent] at before
    cases before
  · exact ⟨seen, read⟩

theorem Loads.gains {done : Bytes → Prop} (loads : Loads (freshOf env b.openText?) b done [] s) :
    Gains env b.openText? b.fileAt? b.Knows done s where
  texts := loads.texts
  files p := by
    refine Option.ext fun f => ?_
    rw [loads.files p f, gained_some]
    simp
  known := loads.known

-- What is spared becomes known, but is not parsed.
theorem Loads.gains_spared {given done : Bytes → Prop} (loads : Loads (spared given (freshOf env b.openText?)) b done [] s) :
    Gains env b.openText? b.fileAt? (fun p => b.Knows p ∨ done p) (fun p => done p ∧ ¬ given p) s where
  texts := loads.texts
  files p := by
    refine Option.ext fun f => ?_
    rw [loads.files p f, gained_some, spared]
    by_cases gone : given p <;> simp [gone]
  known p := (loads.known p).trans (or_iff_left_of_imp fun spared => .inr spared.1).symm

theorem Gains.frame {words : Bytes → Option Bytes} {table : Bytes → Option File} {names done : Bytes → Prop}
    (gains : Gains env words table names done s) (entries : t.entries = s.entries) : Gains env words table names done t where
  texts p := (openText_frame entries p).trans (gains.texts p)
  files p := (fileAt_frame entries p).trans (gains.files p)
  known p := (knows_frame entries p).trans (gains.known p)

end DeviceTree.Session
