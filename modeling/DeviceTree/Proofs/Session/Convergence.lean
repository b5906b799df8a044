import DeviceTree.Proofs.Session.Outcomes

namespace DeviceTree.Session

variable {env : Environment} {s t : Session}

theorem freshOf_faithful (env : Environment) (texts : Bytes → Option Bytes) : Tree.Faithful (freshOf env texts) where
  paths p f found := by
    obtain ⟨text, rfl⟩ := freshOf_ofText found
    rfl
  plain p f found d member q finding := by
    obtain ⟨text, rfl⟩ := freshOf_ofText found
    rcases Merge.ofText_findings member with ⟨problem, other⟩ | ⟨target, other⟩
    · cases finding.symm.trans other
    · cases finding.symm.trans other

-- The snapshot of a context is the merge of some table, which had the right files wherever the merge went.
def Context.Fresh (look : Bytes → Option File) (bindings : Option Catalog) (c : Context) : Prop :=
  ∃ tree found files, tree.check = .ok found ∧ c.snapshot = some ⟨tree, tree.diagnostics ++ found, c.generation⟩ ∧
    tree = Tree.merge c.name c.roots files bindings ∧ c.deps = c.roots ++ tree.files ∧
    ∀ p ∈ c.deps, Merge.fileAt? files p = look p

theorem Context.Fresh.congr {look look' : Bytes → Option File} {bindings : Option Catalog} {c : Context}
    (fresh : c.Fresh look bindings) (same : ∀ p ∈ c.deps, look' p = look p) : c.Fresh look' bindings := by
  obtain ⟨tree, found, files, passed, shown, merged, deps, right⟩ := fresh
  exact ⟨tree, found, files, passed, shown, merged, deps, fun p used => (right p used).trans (same p used).symm⟩

-- A root that was given up when another context failed to open is not parsed; but no root of an open context is one.
structure UpToDate (look : Bytes → Option File) (s : Session) : Prop where
  stored : ∀ p f, s.fileAt? p = some f → look p = some f
  rooted : ∀ id ∈ s.enrolled, ∀ c, s.context? id = some c → ∀ p ∈ c.roots, s.fileAt? p = look p
  shown : ∀ id ∈ s.enrolled, ∀ c, s.context? id = some c → c.Fresh look s.bindings

theorem renewed_fresh {look : Bytes → Option File} (rest : AtRest t) (stored : ∀ p f, t.fileAt? p = some f → look p = some f)
    {c : Context} (rooted : ∀ p ∈ c.roots, t.fileAt? p = look p) (passes : c.Passes t) :
    (c.renewed t).Fresh look t.bindings := by
  obtain ⟨found, passed⟩ := passes
  have table := fileAt_table rest.sound.tended.filed rest.parsed
  have deps := mem_renewed_deps rest.sound.tended.filed rest.parsed c
  rw [Context.renewed_eq passed] at deps ⊢
  refine ⟨_, found, t.parsedFiles, passed, rfl, rfl, rfl, fun p used => ?_⟩
  rw [table]
  rcases (deps p).mp used with root | ⟨-, loaded⟩
  · exact rooted p root
  · obtain ⟨f, there⟩ := Option.isSome_iff_exists.mp loaded
    rw [there, stored p f there]

theorem gained_right {files fresh : Bytes → Option File} {done : Bytes → Prop} {p : Bytes} (right : files p = fresh p) :
    gained files fresh done p = fresh p := by
  unfold gained
  split
  · rfl
  · exact right

theorem gained_done {files fresh : Bytes → Option File} {done : Bytes → Prop} {p : Bytes}
    (stored : ∀ f, files p = some f → fresh p = some f) (seen : done p) : gained files fresh done p = fresh p := by
  cases found : files p with
  | none => rw [gained, if_pos ⟨found, seen⟩]
  | some f => exact gained_right (found.trans (stored f found).symm)

namespace Gains

variable {words : Bytes → Option Bytes} {table : Bytes → Option File} {names done : Bytes → Prop}

theorem look (gains : Gains env words table names done t) : freshOf env t.openText? = freshOf env words := by
  rw [show t.openText? = words from funext gains.texts]

theorem stored (gains : Gains env words table names done t) {p : Bytes} {f : File}
    (stored : table p = some f → freshOf env words p = some f) (found : t.fileAt? p = some f) :
    freshOf env words p = some f := by
  rw [gains.files] at found
  rcases gained_some.mp found with there | ⟨-, -, read⟩
  · exact stored there
  · exact read

theorem right (gains : Gains env words table names done t) {p : Bytes} (right : table p = freshOf env words p) :
    t.fileAt? p = freshOf env words p :=
  (gains.files p).trans (gained_right right)

end Gains

theorem AtRest.used (rest : AtRest s) {id : ContextId} (member : id ∈ s.enrolled) {c : Context}
    (found : s.context? id = some c) {p : Bytes} (root : p ∈ c.roots) : s.isUsed p = true :=
  isUsed_iff.mpr ⟨id, member, c, found, (rest.depends id member c found).roots p root⟩

-- Contexts that are merged anew show the files of now, and so do the others if theirs have not changed.
theorem Revises.upToDate {ids : List ContextId} {look look' : Bytes → Option File} (revises : Revises s ids t) (rest : AtRest s)
    (rest' : AtRest t) (before : UpToDate look s) (stored : ∀ p f, t.fileAt? p = some f → look' p = some f)
    (rooted : ∀ p, s.isUsed p = true → s.fileAt? p = look p → t.fileAt? p = look' p)
    (kept : ∀ id ∈ s.enrolled, id ∉ ids → t.bindings = s.bindings ∧
      ∀ c, s.context? id = some c → ∀ p ∈ c.deps, look' p = look p) : UpToDate look' t := by
  have roots : ∀ id ∈ s.enrolled, ∀ c, s.context? id = some c → ∀ p ∈ c.roots, t.fileAt? p = look' p :=
    fun id member c found p root => rooted p (rest.used member found root) (before.rooted id member c found p root)
  refine ⟨stored, fun id member c found p root => ?_, fun id member c found => ?_⟩
  · rw [revises.enrolled] at member
    rw [revises.contexts] at found
    split at found
    · obtain ⟨o, there, rfl⟩ := Option.map_eq_some_iff.mp found
      exact roots id member o there p root
    · exact roots id member c found p root
  · rw [revises.enrolled] at member
    rw [revises.contexts] at found
    split at found
    · rename_i asked
      obtain ⟨o, there, rfl⟩ := Option.map_eq_some_iff.mp found
      exact renewed_fresh rest' stored (roots id member o there) (revises.passes id asked o there)
    · rename_i apart
      obtain ⟨bindings, same⟩ := kept id member apart
      rw [bindings]
      exact (before.shown id member c found).congr (same c found)

theorem unused_elsewhere {path : Bytes} {id : ContextId} (unused : s.uses id path = false) {c : Context}
    (found : s.context? id = some c) : ∀ p ∈ c.deps, p ≠ path := by
  rintro p there rfl
  rw [uses_iff.mpr ⟨c, found, there⟩] at unused
  cases unused

-- One file is parsed anew or dropped. A context that does not use it is not merged anew, and its files stay what they were.
theorem Revises.upToDate_update {ids : List ContextId} {path : Bytes} {text? : Option Bytes} {file? : Option File}
    {names done : Bytes → Prop} (revises : Revises s ids t) (rest : AtRest s) (rest' : AtRest t)
    (before : UpToDate (freshOf env s.openText?) s) (bindings : t.bindings = s.bindings)
    (gains : Gains env (Function.update s.openText? path text?) (Function.update s.fileAt? path file?) names done t)
    (made : ∀ f, file? = some f → freshOf env (Function.update s.openText? path text?) path = some f)
    (here : s.isUsed path = true → t.fileAt? path = freshOf env (Function.update s.openText? path text?) path)
    (apart : ∀ id ∈ s.enrolled, id ∉ ids → s.uses id path = false) : UpToDate (freshOf env t.openText?) t := by
  have stored : ∀ p f, Function.update s.fileAt? path file? p = some f →
      freshOf env (Function.update s.openText? path text?) p = some f := by
    intro p f found
    rw [Function.update_apply] at found
    split at found
    · rename_i mine
      exact mine ▸ made f found
    · rename_i other
      exact (freshOf_update_of_ne other).trans (before.stored p f found)
  rw [gains.look]
  refine revises.upToDate rest rest' before (fun p f => gains.stored (stored p f)) (fun p used right => ?_) fun id member left =>
    ⟨bindings, fun c found p there => freshOf_update_of_ne (unused_elsewhere (apart id member left) found p there)⟩
  by_cases mine : p = path
  · exact mine ▸ here (mine ▸ used)
  · refine gains.right ?_
    rw [Function.update_of_ne mine, freshOf_update_of_ne mine, right]

-- The contexts that are open were so before, and nothing has become of them.
theorem UpToDate.keeps {look : Bytes → Option File} (before : UpToDate look s) (bindings : t.bindings = s.bindings)
    (same : ∀ id ∈ t.enrolled, id ∈ s.enrolled ∧ t.context? id = s.context? id)
    (stored : ∀ p f, t.fileAt? p = some f → look p = some f)
    (rooted : ∀ id ∈ t.enrolled, ∀ c, t.context? id = some c → ∀ p ∈ c.roots, s.fileAt? p = look p → t.fileAt? p = look p) :
    UpToDate look t := by
  refine ⟨stored, fun id member c found p root => ?_, fun id member c found => ?_⟩
  · obtain ⟨old, kept⟩ := same id member
    exact rooted id member c found p root (before.rooted id old c (kept ▸ found) p root)
  · obtain ⟨old, kept⟩ := same id member
    exact bindings ▸ before.shown id old c (kept ▸ found)

theorem Outcome.upToDate {c : Call} (outcome : Outcome env s t c) (rest : AtRest s) (rest' : AtRest t)
    (before : UpToDate (freshOf env s.openText?) s) : UpToDate (freshOf env t.openText?) t := by
  cases outcome with
  | @changed path text gains revises bindings =>
    have typed : freshOf env (Function.update s.openText? path (some text)) path =
        some (File.ofText env.source env.includeDirs path text) := by
      rw [freshOf, Function.update_self]
    refine revises.upToDate_update rest rest' before bindings gains ?_ (fun _ => gains.right ?_)
      fun id member => uses_of_not_dependent member
    · rintro f ⟨⟩
      exact typed
    · rw [Function.update_self, typed]
  | @reread path used gains revises bindings =>
    refine revises.upToDate_update rest rest' before bindings gains (fun _ missing => by cases missing) (fun _ => ?_)
      fun id member => uses_of_not_dependent member
    refine (gains.files path).trans (gained_done (fun f found => ?_) (.named (List.mem_singleton_self path)))
    rw [Function.update_self] at found
    cases found
  | @dropped path unused gains revises bindings =>
    refine revises.upToDate_update rest rest' before bindings gains (fun _ missing => by cases missing) (fun used => ?_)
      fun id member _ => unused_apart unused id member
    rw [unused] at used
    cases used
  | @opened name base overlays readable gains enrolled contexts passes _ bindings =>
    have kept := fun p f => gains.stored (before.stored p f)
    have roots : ∀ p ∈ base :: overlays, t.fileAt? p = freshOf env s.openText? p :=
      fun p root => (gains.files p).trans (gained_done (before.stored p) (.named root))
    have older : ∀ id ∈ t.enrolled, id ≠ s.contexts.size → id ∈ s.enrolled := by
      intro id member other
      rw [enrolled] at member
      exact (List.mem_append.mp member).resolve_right (mt List.mem_singleton.mp other)
    rw [gains.look]
    refine ⟨kept, fun id member c found p root => ?_, fun id member c found => ?_⟩
    · rw [contexts] at found
      split at found
      · cases Option.some.inj found
        exact roots p root
      · rename_i other
        exact gains.right (before.rooted id (older id member other) c found p root)
    · rw [contexts] at found
      split at found
      · cases Option.some.inj found
        exact renewed_fresh rest' kept roots passes
      · rename_i other
        exact bindings ▸ before.shown id (older id member other) c found
  | @refused name base overlays unreadable gains enrolled contexts _ bindings =>
    obtain ⟨failure, contexts⟩ := contexts
    rw [gains.look]
    refine before.keeps bindings (fun id member => ?_) (fun p f => gains.stored (before.stored p f))
      fun _ _ _ _ p _ right => gains.right right
    rw [enrolled] at member
    exact ⟨member, (contexts id).trans (if_neg (Nat.ne_of_lt (rest.bounded member)))⟩
  | @removed gone c member found gains enrolled contexts _ bindings =>
    rw [gains.look]
    refine before.keeps bindings (fun id member => ?_) (fun p f => gains.stored fun there => ?_)
      fun id member o there p root right => ?_
    · rw [enrolled, List.mem_filter, bne_iff_ne] at member
      exact ⟨member.1, (contexts id).trans (if_neg member.2.symm)⟩
    · split at there
      · cases there
      · exact before.stored p f there
    · refine gains.right (.trans (if_neg ?_) right)
      rintro ⟨-, -, unused⟩
      rw [rest'.used member there root] at unused
      cases unused
  | kept _ same => exact same ▸ before
  | bound gains revises bindings =>
    rw [gains.look]
    exact revises.upToDate rest rest' before (fun p f => gains.stored (before.stored p f))
      (fun p _ right => gains.right right) fun id member apart => absurd member apart

def loadedBindings (env : Environment) : List Call → Option Catalog
  | [] => none
  | .loadBindings paths :: _ => some (Loader.load env.source .empty paths).catalog
  | _ :: earlier => loadedBindings env earlier

-- A file parsed from its present text: the editor's if it is open there, and else that of the source.
def currentFile (env : Environment) (calls : List Call) (path : Bytes) : Option File :=
  match editorText calls path with
  | some text => some (File.ofText env.source env.includeDirs path text)
  | none => (File.read env.source env.includeDirs path).toOption

-- Calls that each found the session at rest, and their work was done in any order.
inductive Settled (env : Environment) : List Call → Session → Prop where
  | start : Settled env [] empty
  | call {calls : List Call} {s t : Session} (c : Call) (before : Settled env calls s) (works : Works env (c.apply s) t)
      (tasks : t.tasks = []) (armed : t.armed = []) : Settled env (c :: calls) t

theorem Settled.rested {calls : List Call} (settled : Settled env calls s) :
    ∃ history, Rested history s ∧ history.map (·.call) = calls := by
  induction settled with
  | start => exact ⟨[], .start, rfl⟩
  | call c _ works tasks armed ih =>
    obtain ⟨history, rested, same⟩ := ih
    exact ⟨_, .turn env c rested ⟨works, tasks, armed⟩, congrArg (c :: ·) same⟩

theorem currentFile_eq (env : Environment) (calls : List Call) : currentFile env calls = freshOf env (editorText calls) := rfl

theorem currentFile_faithful (env : Environment) (calls : List Call) : Tree.Faithful (currentFile env calls) :=
  freshOf_faithful env (editorText calls)

theorem Outcome.openText {c : Call} (outcome : Outcome env s t c) {calls : List Call} (texts : s.openText? = editorText calls) :
    t.openText? = editorText (c :: calls) := by
  have written : ∀ path text?, Function.update s.openText? path text? = fun p => if p = path then text? else editorText calls p := by
    intro path text?
    rw [texts]
    exact funext (Function.update_apply _ _ _)
  cases outcome with
  | @changed path text gains => exact (funext gains.texts).trans (written path (some text))
  | @reread path _ gains => exact (funext gains.texts).trans (written path none)
  | @dropped path _ gains => exact (funext gains.texts).trans (written path none)
  | opened _ gains => exact (funext gains.texts).trans texts
  | refused _ gains => exact (funext gains.texts).trans texts
  | removed _ _ gains => exact (funext gains.texts).trans texts
  | kept _ same => exact same ▸ texts
  | bound gains => exact (funext gains.texts).trans texts

theorem Outcome.loaded {c : Call} (outcome : Outcome env s t c) {calls : List Call}
    (bound : s.bindings = loadedBindings env calls) : t.bindings = loadedBindings env (c :: calls) := by
  cases outcome with
  | changed _ _ bindings => exact bindings.trans bound
  | reread _ _ _ bindings => exact bindings.trans bound
  | dropped _ _ _ bindings => exact bindings.trans bound
  | opened _ _ _ _ _ _ bindings => exact bindings.trans bound
  | refused _ _ _ _ _ bindings => exact bindings.trans bound
  | removed _ _ _ _ _ _ bindings => exact bindings.trans bound
  | kept _ same => exact same ▸ bound
  | bound _ _ bindings => exact bindings

theorem settled_upToDate {calls : List Call} (settled : Settled env calls s) :
    AtRest s ∧ UpToDate (currentFile env calls) s ∧ s.openText? = editorText calls ∧ s.bindings = loadedBindings env calls := by
  induction settled with
  | start => exact ⟨empty_rests, ⟨nofun, nofun, nofun⟩, rfl, rfl⟩
  | @call calls s t c _ works tasks armed ih =>
    obtain ⟨rest, before, texts, bound⟩ := ih
    obtain ⟨outcome, rest'⟩ := settles_outcome rest ⟨works, tasks, armed⟩
    rw [currentFile_eq, ← texts] at before
    have after := outcome.upToDate rest rest' before
    rw [outcome.openText texts] at after
    exact ⟨rest', after, outcome.openText texts, outcome.loaded bound⟩

theorem settled_snapshot {calls : List Call} (settled : Settled env calls s) :
    ∀ id ∈ s.enrolled, ∃ c tree found, s.context? id = some c ∧ tree.check = .ok found ∧
      c.snapshot = some ⟨tree, tree.diagnostics ++ found, c.generation⟩ ∧
      ((∃ files, Tree.IsClosure (currentFile env calls) c.roots files ∧
          tree = Tree.merge c.name c.roots files (loadedBindings env calls)) ↔
        ∀ p, tree.Lacks p → currentFile env calls p = none) := by
  obtain ⟨rest, current, -, bound⟩ := settled_upToDate settled
  intro id member
  obtain ⟨c, there, -⟩ := rest.sound.held.enrolled id member
  obtain ⟨tree, found, files, passed, shown, rfl, deps, right⟩ := current.shown id member c there
  rw [deps] at right
  rw [bound] at passed shown right
  exact ⟨c, _, found, there, passed, shown, Tree.closure_iff (currentFile_faithful env calls) c.name c.roots files _ right⟩

def perform (env : Environment) (fuel : Nat) : List Call → Option Session
  | [] => some empty
  | c :: earlier => (perform env fuel earlier).bind fun s =>
    let t := settle env fuel (c.apply s)
    if t.tasks.isEmpty && t.armed.isEmpty then some t else none

theorem perform_settled {fuel : Nat} {calls : List Call} (done : perform env fuel calls = some s) : Settled env calls s := by
  induction calls generalizing s with
  | nil =>
    cases Option.some.inj done
    exact .start
  | cons c earlier ih =>
    obtain ⟨u, before, rest⟩ := Option.bind_eq_some_iff.mp done
    dsimp only at rest
    split at rest
    · rename_i quiet
      cases Option.some.inj rest
      rw [Bool.and_eq_true, List.isEmpty_iff, List.isEmpty_iff] at quiet
      exact .call c (ih before) (settle_works env fuel _) quiet.1 quiet.2
    · cases rest

def nested : Environment where
  source := .ofTable [(utf8 "/a.dts", utf8 "#include \"b.dtsi\"\n"), (utf8 "/b.dtsi", utf8 "#include \"c.dtsi\"\n"),
    (utf8 "/c.dtsi", [])]
  includeDirs := []
  begun _ := []

def openBoard : Call := .openContext [] (utf8 "/a.dts") []

-- The file in the middle is open in the editor while the context that uses it is discarded, so that it stays
-- and what it includes does not; and opening the context anew follows the includes of new files only.
def reopenBoard : List Call :=
  [openBoard, .remove 0, .change (utf8 "/b.dtsi") (utf8 "#include \"c.dtsi\"\n"), openBoard]

def notLoaded (s : Session) (id : ContextId) : List Bytes :=
  ((s.snapshot? id).map fun shot => shot.tree.diagnostics.filterMap fun d =>
    match d.finding with
    | .notLoaded path => some path
    | _ => none).getD []

theorem mem_notLoaded {id : ContextId} {c : Context} {shot : Snapshot} (found : s.context? id = some c)
    (shown : c.snapshot = some shot) {p : Bytes} : p ∈ s.notLoaded id ↔ shot.tree.Lacks p := by
  simp only [notLoaded, snapshot?, found, Option.bind_some, shown, Option.map_some, Option.getD_some, List.mem_filterMap,
    Tree.Lacks]
  constructor
  · rintro ⟨d, member, told⟩
    split at told
    · rename_i path finding
      cases Option.some.inj told
      exact ⟨d, member, finding⟩
    · cases told
  · rintro ⟨d, member, finding⟩
    exact ⟨d, member, by rw [finding]⟩

theorem board_converged : ∃ s c tree found files, Settled nested [openBoard] s ∧ 0 ∈ s.enrolled ∧ s.context? 0 = some c ∧
    tree.check = .ok found ∧ c.snapshot = some ⟨tree, tree.diagnostics ++ found, c.generation⟩ ∧
    Tree.IsClosure (currentFile nested [openBoard]) c.roots files ∧
    tree = Tree.merge c.name c.roots files (loadedBindings nested [openBoard]) := by
  have outcome : ((perform nested 40 [openBoard]).map fun s => (s.enrolled, s.notLoaded 0)) = some ([0], []) := by
    decide +kernel
  obtain ⟨s, done, equal⟩ := Option.map_eq_some_iff.mp outcome
  obtain ⟨enrolled, complete⟩ := Prod.mk.inj equal
  have settled := perform_settled done
  have member : 0 ∈ s.enrolled := by simp [enrolled]
  obtain ⟨c, tree, found, there, passed, shown, exactly⟩ := settled_snapshot settled 0 member
  obtain ⟨files, closure, merged⟩ := exactly.mpr fun p lacking => by
    have told := (mem_notLoaded there shown).mpr lacking
    rw [complete] at told
    cases told
  exact ⟨s, c, tree, found, files, settled, member, there, passed, shown, closure, merged⟩

theorem reopened_board_stale : ¬ ∀ (calls : List Call) (s : Session), Settled nested calls s →
    ∀ id ∈ s.enrolled, ∃ c tree found files, s.context? id = some c ∧ tree.check = .ok found ∧
      c.snapshot = some ⟨tree, tree.diagnostics ++ found, c.generation⟩ ∧
      Tree.IsClosure (currentFile nested calls) c.roots files ∧
      tree = Tree.merge c.name c.roots files (loadedBindings nested calls) := by
  intro converges
  have outcome : ((perform nested 40 reopenBoard).map fun s => (s.enrolled, s.notLoaded 1)) =
      some ([1], [utf8 "/c.dtsi"]) := by
    decide +kernel
  have there : (currentFile nested reopenBoard (utf8 "/c.dtsi")).isSome = true := by decide +kernel
  obtain ⟨s, done, equal⟩ := Option.map_eq_some_iff.mp outcome
  obtain ⟨enrolled, told⟩ := Prod.mk.inj equal
  have settled := perform_settled done
  obtain ⟨c, tree, found, files, shows, -, shown, closure, merged⟩ := converges _ s settled 1 (by simp [enrolled])
  have lacking : tree.Lacks (utf8 "/c.dtsi") := by
    refine (mem_notLoaded shows shown).mp ?_
    rw [told]
    exact List.mem_singleton_self _
  rw [merged] at lacking
  rw [Tree.missing_of_closure (currentFile_faithful _ _) closure lacking] at there
  cases there

end DeviceTree.Session
