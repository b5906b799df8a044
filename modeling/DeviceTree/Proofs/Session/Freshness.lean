import DeviceTree.Proofs.Session.Contexts

namespace DeviceTree.Session

variable {env : Environment} {s t : Session}

-- A file that was parsed at some time, whatever the source was then.
def IsParsed (path : Bytes) (f : File) : Prop := ∃ source dirs text, f = File.ofText source dirs path text

theorem read_ofText {path : Bytes} {f : File} (found : (File.read env.source env.includeDirs path).toOption = some f) :
    ∃ text, f = File.ofText env.source env.includeDirs path text := by
  unfold File.read at found
  cases text : env.source.read path with
  | error e =>
    rw [text] at found
    cases found
  | ok bytes =>
    rw [text] at found
    exact ⟨bytes, (Option.some.inj found).symm⟩

def freshOf (env : Environment) (texts : Bytes → Option Bytes) (p : Bytes) : Option File :=
  match texts p with
  | some text => some (File.ofText env.source env.includeDirs p text)
  | none => (File.read env.source env.includeDirs p).toOption

theorem freshOf_ofText {texts : Bytes → Option Bytes} {p : Bytes} {f : File} (found : freshOf env texts p = some f) :
    ∃ text, f = File.ofText env.source env.includeDirs p text := by
  unfold freshOf at found
  split at found
  · exact ⟨_, (Option.some.inj found).symm⟩
  · exact read_ofText found

theorem freshOf_parsed {texts : Bytes → Option Bytes} {p : Bytes} {f : File} (found : freshOf env texts p = some f) :
    IsParsed p f := by
  obtain ⟨text, rfl⟩ := freshOf_ofText found
  exact ⟨_, _, text, rfl⟩

theorem freshOf_update_of_ne {texts : Bytes → Option Bytes} {path p : Bytes} {text? : Option Bytes} (apart : p ≠ path) :
    freshOf env (Function.update texts path text?) p = freshOf env texts p := by
  rw [freshOf, freshOf, Function.update_of_ne apart]

def editorText : List Call → Bytes → Option Bytes
  | [], _ => none
  | .change path text :: earlier, p => if p = path then some text else editorText earlier p
  | .close path :: earlier, p => if p = path then none else editorText earlier p
  | _ :: earlier, p => editorText earlier p

def openText? (s : Session) (path : Bytes) : Option Bytes :=
  (s.entry? path).bind fun e => if e.isOpen then some e.text else none

def Knows (s : Session) (path : Bytes) : Prop := ∃ e ∈ s.entries, e.live = true ∧ e.path = path

theorem knows_iff {p : Bytes} : s.Knows p ↔ ∃ e, s.entry? p = some e := by
  constructor
  · rintro ⟨e, present, alive, located⟩
    cases found : s.entry? p with
    | some o => exact ⟨o, rfl⟩
    | none => exact absurd located (entry_none found present alive)
  · rintro ⟨e, found⟩
    exact ⟨e, (entry_mem found).1, (entry_mem found).2⟩

theorem fileAt_entry {p : Bytes} {e : Entry} (found : s.entry? p = some e) : s.fileAt? p = e.parsed := by
  rw [fileAt?, found, Option.bind_some]

theorem knows_of_fileAt {p : Bytes} {f : File} (found : s.fileAt? p = some f) : s.Knows p := by
  obtain ⟨e, entry, -⟩ := Option.bind_eq_some_iff.mp found
  exact knows_iff.mpr ⟨e, entry⟩

theorem knows_of_openText {p text : Bytes} (found : s.openText? p = some text) : s.Knows p := by
  obtain ⟨e, entry, -⟩ := Option.bind_eq_some_iff.mp found
  exact knows_iff.mpr ⟨e, entry⟩

section Frames

variable (entries : t.entries = s.entries) (p : Bytes)

include entries

theorem entry_frame : t.entry? p = s.entry? p := by
  unfold entry?
  rw [entries]

theorem fileAt_frame : t.fileAt? p = s.fileAt? p := by
  rw [fileAt?, fileAt?, entry_frame entries]

theorem openText_frame : t.openText? p = s.openText? p := by
  rw [openText?, openText?, entry_frame entries]

theorem knows_frame : t.Knows p ↔ s.Knows p := by
  rw [Knows, Knows, entries]

end Frames

theorem entry_iff (filed : Filed s.entries s.lastSerial) {p : Bytes} {e : Entry} :
    s.entry? p = some e ↔ e ∈ s.entries ∧ e.live = true ∧ e.path = p := by
  refine ⟨entry_mem, ?_⟩
  rintro ⟨present, alive, rfl⟩
  exact entry_of_mem filed present alive

theorem entry_updateEntry (s : Session) (n : Nat) {f : Entry → Entry} (path : ∀ e, (f e).path = e.path)
    (live : ∀ e, (f e).live = e.live) (p : Bytes) :
    entry? (s.updateEntry n f) p = (s.entry? p).map fun e => if e.serial = n then f e else e := by
  unfold entry? updateEntry
  rw [List.find?_map]
  congr 1
  refine congrArg (List.find? · s.entries) ?_
  funext e
  simp only [Function.comp_apply]
  split <;> simp [path, live]

theorem updateEntry_knows (s : Session) (n : Nat) (p : Bytes) {f : Entry → Entry} (path : ∀ e, (f e).path = e.path)
    (live : ∀ e, (f e).live = e.live) : (s.updateEntry n f).Knows p ↔ s.Knows p := by
  rw [knows_iff, knows_iff, entry_updateEntry s n path live]
  cases s.entry? p <;> simp

theorem updateEntry_fileAt (s : Session) (n : Nat) (p : Bytes) {f : Entry → Entry} (path : ∀ e, (f e).path = e.path)
    (live : ∀ e, (f e).live = e.live) (parsed : ∀ e, (f e).parsed = e.parsed) :
    (s.updateEntry n f).fileAt? p = s.fileAt? p := by
  rw [fileAt?, entry_updateEntry s n path live, fileAt?]
  cases s.entry? p with
  | none => rfl
  | some e =>
    simp only [Option.map_some, Option.bind_some]
    split
    · exact parsed e
    · rfl

theorem updateEntry_openText (s : Session) (n : Nat) (p : Bytes) {f : Entry → Entry} (path : ∀ e, (f e).path = e.path)
    (live : ∀ e, (f e).live = e.live) (text : ∀ e, (f e).text = e.text) (opened : ∀ e, (f e).isOpen = e.isOpen) :
    (s.updateEntry n f).openText? p = s.openText? p := by
  rw [openText?, entry_updateEntry s n path live, openText?]
  cases s.entry? p with
  | none => rfl
  | some e =>
    simp only [Option.map_some, Option.bind_some]
    split
    · rw [opened e, text e]
    · rfl

theorem entry_elsewhere (filed : Filed s.entries s.lastSerial) {e : Entry} (present : e ∈ s.entries) {f : Entry → Entry}
    (serial : ∀ e, (f e).serial = e.serial) (path : ∀ e, (f e).path = e.path)
    (live : ∀ e, (f e).live = true → e.live = true) {p : Bytes} (differ : p ≠ e.path) :
    entry? (s.updateEntry e.serial f) p = s.entry? p := by
  have filed' : Filed (s.updateEntry e.serial f).entries (s.updateEntry e.serial f).lastSerial :=
    filed.update _ serial path live
  apply Option.ext
  intro o
  rw [entry_iff filed', entry_iff filed, mem_updateEntry]
  constructor
  · rintro ⟨⟨o, there, same, rfl⟩ | ⟨there, -⟩, alive, located⟩
    · cases filed.same_serial there present same
      exact absurd (located.symm.trans (path _)) differ
    · exact ⟨there, alive, located⟩
  · rintro ⟨there, alive, located⟩
    refine ⟨.inr ⟨there, fun same => ?_⟩, alive, located⟩
    cases filed.same_serial there present same
    exact differ located.symm

theorem entry_updateOne (filed : Filed s.entries s.lastSerial) {path : Bytes} {e : Entry} (found : s.entry? path = some e)
    {f : Entry → Entry} (serial : ∀ e, (f e).serial = e.serial) (located : ∀ e, (f e).path = e.path)
    (live : ∀ e, (f e).live = e.live) (p : Bytes) :
    entry? (s.updateEntry e.serial f) p = if p = path then some (f e) else s.entry? p := by
  obtain ⟨present, -, same⟩ := entry_mem found
  split
  · rename_i mine
    rw [mine, entry_updateEntry s e.serial located live, found, Option.map_some, if_pos rfl]
  · rename_i differ
    exact entry_elsewhere filed present serial located (fun o alive => live o ▸ alive) (same ▸ differ)

theorem ensureEntry_filed (filed : Filed s.entries s.lastSerial) (path : Bytes) :
    Filed (s.ensureEntry path).2.entries (s.ensureEntry path).2.lastSerial ∧
      (s.ensureEntry path).1 ∈ (s.ensureEntry path).2.entries ∧ (s.ensureEntry path).1.live = true ∧
      (s.ensureEntry path).1.path = path := by
  unfold ensureEntry
  split
  · rename_i e found
    exact ⟨filed, entry_mem found⟩
  · rename_i missing
    exact ⟨filed.add rfl fun e present alive => entry_none missing present alive, by simp⟩

theorem entry_ensureEntry (s : Session) (path p : Bytes) :
    entry? (s.ensureEntry path).2 p = if p = path then some (s.ensureEntry path).1 else s.entry? p := by
  unfold ensureEntry
  cases found : s.entry? path with
  | some e =>
    dsimp only
    split
    · rename_i mine
      rw [mine, found]
    · rfl
  | none =>
    dsimp only
    unfold entry? at found ⊢
    rw [List.find?_append]
    split
    · rename_i mine
      rw [mine, found]
      simp
    · rename_i differ
      simp [Ne.symm differ]

theorem ensureEntry_entry (s : Session) (path : Bytes) :
    s.entry? path = some (s.ensureEntry path).1 ∨
      s.entry? path = none ∧ (s.ensureEntry path).1.isOpen = false ∧ (s.ensureEntry path).1.parsed = none ∧
        (s.ensureEntry path).1.state = .unparsed := by
  unfold ensureEntry
  cases found : s.entry? path with
  | some e => exact .inl rfl
  | none => exact .inr ⟨rfl, rfl, rfl, rfl⟩

theorem ensureEntry_openText (s : Session) (path p : Bytes) : (s.ensureEntry path).2.openText? p = s.openText? p := by
  unfold openText?
  rw [entry_ensureEntry]
  split
  · rename_i mine
    rcases ensureEntry_entry s path with found | ⟨missing, closed, -⟩
    · rw [mine, found]
    · simp [mine, missing, closed]
  · rfl

theorem ensureEntry_fileAt (s : Session) (path p : Bytes) : (s.ensureEntry path).2.fileAt? p = s.fileAt? p := by
  unfold fileAt?
  rw [entry_ensureEntry]
  split
  · rename_i mine
    rcases ensureEntry_entry s path with found | ⟨missing, -, empty, -⟩
    · rw [mine, found]
    · simp [mine, missing, empty]
  · rfl

theorem ensureEntry_knows (s : Session) (path p : Bytes) : (s.ensureEntry path).2.Knows p ↔ s.Knows p ∨ p = path := by
  rw [knows_iff, knows_iff, entry_ensureEntry]
  by_cases mine : p = path <;> simp [mine]

def Entry.edited (e : Entry) (text : Bytes) (timer : Nat) : Entry :=
  { e with text, isOpen := true, generation := e.generation + 1, timer := some timer, timerId := timer }

theorem change_quiet (quiet : s.armed = []) (path text : Bytes) :
    ∃ pending, s.change path text =
      { (s.ensureEntry path).2.updateEntry (s.ensureEntry path).1.serial (·.edited text (s.lastTimer + 1)) with
        armed := [⟨path, s.lastTimer + 1⟩], lastTimer := s.lastTimer + 1, pending := pending } := by
  obtain ⟨entries, last, pending, frame⟩ := ensureEntry_files s path
  have timer : (s.ensureEntry path).2.lastTimer = s.lastTimer := by rw [frame]
  have armed : (s.ensureEntry path).2.armed = [] := by rw [frame]; exact quiet
  unfold change
  generalize s.ensureEntry path = made at timer armed ⊢
  obtain ⟨e, u⟩ := made
  dsimp only at timer armed ⊢
  split
  · rename_i found
    rw [show (u.updateEntry e.serial _).armed = [] from armed] at found
    cases timer : e.timer <;> simp [timer] at found
  · refine ⟨u.pending + 1, ?_⟩
    simp only [updateEntry, addPending, List.map_map, Session.mk.injEq, armed, timer, List.nil_append, and_true]
    refine List.map_congr_left fun o _ => ?_
    by_cases mine : o.serial = e.serial <;> simp [mine, Entry.edited]

end DeviceTree.Session
