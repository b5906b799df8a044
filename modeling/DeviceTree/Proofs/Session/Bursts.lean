import DeviceTree.Proofs.Session.Convergence
import DeviceTree.Proofs.Session.Growth

namespace DeviceTree.Session
open Merge

variable {env : Environment} {s t u : Session} {path : Bytes}

def burst (s : Session) (path : Bytes) (texts : List Bytes) : Session := texts.foldl (fun s text => s.change path text) s

theorem burst_append (s : Session) (path : Bytes) (texts : List Bytes) (text : Bytes) :
    s.burst path (texts ++ [text]) = (s.burst path texts).change path text := List.foldl_append

theorem Grown.burst (grown : Grown env s) (running : s.crash = none) (path : Bytes) (texts : List Bytes) :
    Grown env (s.burst path texts) := by
  induction texts generalizing s with
  | nil => exact grown
  | cons text rest ih =>
    exact ih (grown.change running path text) ((apply_crash s (.change path text)).1.trans running)

theorem burst_poised (sound : Sound s) (quiet : s.armed = []) (path : Bytes) (texts : List Bytes) (text : Bytes) :
    Poised s path text (s.burst path (texts ++ [text])) := by
  induction texts using List.reverseRecOn generalizing text with
  | nil => exact change_poised sound quiet path text
  | append_singleton texts before ih =>
    rw [burst_append]
    exact (ih before).change text

-- A table that has come from another one by edits of one file and by loading.
structure Fills (env : Environment) (base : Bytes → Option File) (path : Bytes) (table : Bytes → Option File) : Prop where
  kept : ∀ p f, p ≠ path → base p = some f → table p = some f
  loaded : ∀ p f, p ≠ path → base p = none → table p = some f → onDisk env p = some f

namespace Fills

variable {base mid mine other : Bytes → Option File}

theorem trans (first : Fills env base path mid) (second : Fills env mid path mine) : Fills env base path mine where
  kept p f differ found := second.kept p f differ (first.kept p f differ found)
  loaded p f differ absent found := by
    cases between : mid p with
    | none => exact second.loaded p f differ between found
    | some g =>
      have same := second.kept p g differ between
      rw [found] at same
      exact (first.loaded p g differ absent between).trans same.symm

theorem same (fills : Fills env base path mine) (fills' : Fills env base path other) {p : Bytes} (differ : p ≠ path)
    (here : Supplied env mine p) (there : Supplied env other p) : other p = mine p := by
  cases found : base p with
  | some f => rw [fills.kept p f differ found, fills'.kept p f differ found]
  | none =>
    cases read : onDisk env p with
    | none =>
      have unread : ∀ table, Fills env base path table → table p = none := by
        intro table filled
        refine Option.eq_none_iff_forall_ne_some.mpr fun f loaded => ?_
        have stored := filled.loaded p f differ found loaded
        rw [read] at stored
        cases stored
      rw [unread mine fills, unread other fills']
    | some g =>
      have present : ∀ table, Fills env base path table → Supplied env table p → table p = some g := by
        intro table filled supplied
        obtain ⟨f, loaded⟩ := Option.isSome_iff_exists.mp (supplied.resolve_right (read ▸ Option.some_ne_none g))
        exact loaded.trans ((filled.loaded p f differ found loaded).symm.trans read)
      rw [present mine fills here, present other fills' there]

theorem agree (fills : Fills env base path mine) (fills' : Fills env base path other)
    (parsed : ∀ p f, mine p = some f → IsParsed p f)
    (closed : ∀ p f, mine p = some f → ∀ q ∈ includesOf f, Supplied env mine q)
    (closed' : ∀ p f, other p = some f → ∀ q ∈ includesOf f, Supplied env other q) {roots : List Bytes}
    (rooted : ∀ r ∈ roots, Supplied env mine r) (rooted' : ∀ r ∈ roots, Supplied env other r)
    (edge : Reaches mine roots path → other path = mine path) {p : Bytes} (reached : Reaches mine roots p) :
    other p = mine p := by
  have equal : ∀ p, Reaches mine roots p → Supplied env mine p → Supplied env other p → other p = mine p := by
    intro p reached here there
    by_cases edited : p = path
    · cases edited
      exact edge reached
    · exact fills.same fills' edited here there
  obtain ⟨r, root, led⟩ := reached
  have supplied : Supplied env mine p ∧ Supplied env other p := by
    induction led with
    | refl => exact ⟨rooted r root, rooted' r root⟩
    | @tail q p prior step ih =>
      obtain ⟨f, found, member⟩ := (includes_iff parsed).mp step
      have there := equal q ⟨r, root, prior⟩ ih.1 ih.2
      rw [found] at there
      exact ⟨closed q f found p member, closed' q f there p member⟩
  exact equal p ⟨r, root, led⟩ supplied.1 supplied.2

end Fills

def Snapshot.content (m : Snapshot) : Tree × List Bytes × List Diagnostic := (m.tree, m.tree.files, m.diagnostics)

def Context.face (c : Context) : List Bytes × Option (Tree × List Bytes × List Diagnostic) :=
  (c.deps, c.snapshot.map Snapshot.content)

theorem face_renewed {c o : Context} (name : o.name = c.name) (roots : o.roots = c.roots)
    (merged : Tree.merge c.name c.roots u.parsedFiles u.bindings = Tree.merge c.name c.roots t.parsedFiles t.bindings) :
    (o.renewed u).face = (c.renewed t).face := by
  have same : o.remerged u = c.remerged t := by rw [Context.remerged, Context.remerged, name, roots, merged]
  simp only [Context.face, Context.renewed, Context.published, Option.map_some, Snapshot.content, roots, same]

theorem merge_agrees {base : Bytes → Option File} (complete : Complete env t) (complete' : Complete env u)
    (fills : Fills env base path t.fileAt?) (fills' : Fills env base path u.fileAt?) (bindings : u.bindings = t.bindings)
    (name : Bytes) {roots : List Bytes} (rooted : ∀ r ∈ roots, Supplied env t.fileAt? r)
    (rooted' : ∀ r ∈ roots, Supplied env u.fileAt? r)
    (edge : Reaches t.fileAt? roots path → u.fileAt? path = t.fileAt? path) :
    Tree.merge name roots u.parsedFiles u.bindings = Tree.merge name roots t.parsedFiles t.bindings := by
  have table : Merge.fileAt? t.parsedFiles = t.fileAt? := funext (fileAt_table complete.sound.tended.filed complete.parsed)
  have table' : Merge.fileAt? u.parsedFiles = u.fileAt? :=
    funext (fileAt_table complete'.sound.tended.filed complete'.parsed)
  rw [bindings]
  refine Tree.merge_reached fun p reached => ?_
  rw [table] at reached ⊢
  rw [table']
  exact fills.agree fills' complete.parsed complete.closed complete'.closed rooted rooted' edge reached

-- A merge that does not enter the file comes to the same, whatever the file says.
theorem face_apart {base : Bytes → Option File} {c : Context} (complete : Complete env t) (complete' : Complete env u)
    (fills : Fills env base path t.fileAt?) (fills' : Fills env base path u.fileAt?) (bindings : u.bindings = t.bindings)
    (rooted : ∀ r ∈ c.roots, Supplied env t.fileAt? r) (rooted' : ∀ r ∈ c.roots, Supplied env u.fileAt? r)
    (loaded : (t.fileAt? path).isSome = true) (apart : path ∉ (c.renewed t).deps) :
    (c.renewed u).face = (c.renewed t).face := by
  rw [mem_renewed_deps complete.sound.tended.filed complete.parsed, not_or] at apart
  refine face_renewed rfl rfl (merge_agrees complete complete' fills fills' bindings c.name rooted rooted' ?_)
  intro reached
  exact absurd ⟨reached, loaded⟩ apart.2

-- What has become of a session by edits of one file, each waited for: the contexts that used the file show the files that
-- there are now, and the others are as they were.
structure Tracks (env : Environment) (s : Session) (path text : Bytes) (t : Session) : Prop where
  grown : Grown env t
  complete : Complete env t
  file : t.fileAt? path = some (File.ofText env.source env.includeDirs path text)
  fills : Fills env s.fileAt? path t.fileAt?
  bindings : t.bindings = s.bindings
  enrolled : t.enrolled = s.enrolled
  opened : ∀ id c, t.context? id = some c → id ∈ t.enrolled
  users : ∀ id ∈ s.dependentsOf path, ∀ c, s.context? id = some c →
    ∃ o, t.context? id = some o ∧ o.name = c.name ∧ o.roots = c.roots ∧ o.face = (c.renewed t).face
  others : ∀ id, id ∉ s.dependentsOf path → t.context? id = s.context? id

section Tracking

variable {text : Bytes}

theorem Gains.fills {f : File} {names done : Bytes → Prop} (complete : Complete env s)
    (gains : Gains env (Function.update s.openText? path (some text)) (Function.update s.fileAt? path (some f)) names done
      t) :
    t.fileAt? path = some f ∧ Fills env s.fileAt? path t.fileAt? := by
  refine ⟨?_, fun p g differ found => ?_, fun p g differ absent found => ?_⟩
  · rw [gains.files]
    exact gained_keeps (Function.update_self ..)
  · rw [gains.files]
    apply gained_keeps
    rw [Function.update_of_ne differ, found]
  · have closed : Function.update s.openText? path (some text) p = none := by
      rw [Function.update_of_ne differ]
      exact unopened complete.typed absent
    rw [← freshOf_closed closed]
    exact (gains.added (by rw [Function.update_of_ne differ, absent]) found).2

theorem Revises.opened {ids : List ContextId} (revises : Revises s ids t)
    (opened : ∀ id c, s.context? id = some c → id ∈ s.enrolled) : ∀ id c, t.context? id = some c → id ∈ t.enrolled := by
  intro id c found
  rw [revises.contexts] at found
  rw [revises.enrolled]
  split at found
  · obtain ⟨o, there, -⟩ := Option.map_eq_some_iff.mp found
    exact opened id o there
  · exact opened id c found

theorem poised_tracks (complete : Complete env s) (opened : ∀ id c, s.context? id = some c → id ∈ s.enrolled)
    (grown : Grown env u) (poised : Poised s path text u) (works : Works env u t) (tasks : t.tasks = [])
    (armed : t.armed = []) : Tracks env s path text t ∧ Revises s (s.dependentsOf path) t := by
  obtain ⟨gains, revises, bindings⟩ :=
    poised_works complete.idle complete.clean complete.listed complete.tasks poised works tasks armed
  obtain ⟨file, fills⟩ := gains.fills complete
  have after : Grown env t := grown.works works
  have whole : Complete env t := after.complete tasks armed (revises.opened opened)
  refine ⟨⟨after, whole, file, fills, bindings, revises.enrolled, revises.opened opened, ?_, ?_⟩, revises⟩
  · intro id member c found
    refine ⟨c.renewed t, ?_, rfl, rfl, rfl⟩
    rw [revises.contexts, if_pos member, found]
    rfl
  · intro id apart
    rw [revises.contexts, if_neg apart]

theorem uses_congr {id : ContextId} (same : t.context? id = s.context? id) (p : Bytes) : t.uses id p = s.uses id p := by
  rw [uses, uses, same]

-- One more text is waited for. A context that the last merge has led away from the file is not merged again, and the
-- merge would not enter the file.
theorem Tracks.change {v w : Session} {text' : Bytes} (tracks : Tracks env s path text v)
    (settles : Settles env v (.change path text') w) : Tracks env s path text' w := by
  obtain ⟨works, tasks, armed⟩ := settles
  have poised := change_poised tracks.complete.sound tracks.complete.armed path text'
  obtain ⟨next, revises⟩ :=
    poised_tracks tracks.complete tracks.opened (tracks.grown.change tracks.complete.running path text') poised works tasks armed
  have fills := tracks.fills.trans next.fills
  refine ⟨next.grown, next.complete, next.file, fills, next.bindings.trans tracks.bindings,
    next.enrolled.trans tracks.enrolled, next.opened, ?_, ?_⟩
  · intro id member c found
    obtain ⟨o, there, name, roots, face⟩ := tracks.users id member c found
    by_cases user : id ∈ v.dependentsOf path
    · refine ⟨o.renewed w, ?_, name, roots, face_renewed name roots rfl⟩
      rw [revises.contexts, if_pos user, there]
      rfl
    · have here : w.context? id = some o := by rw [revises.contexts, if_neg user, there]
      have enrolled : id ∈ v.enrolled := tracks.enrolled ▸ (mem_dependentsOf.mp member).1
      have apart : path ∉ (c.renewed v).deps := by
        intro used
        have deps : o.deps = (c.renewed v).deps := congrArg Prod.fst face
        rw [← deps] at used
        exact user (mem_dependentsOf.mpr ⟨enrolled, uses_iff.mpr ⟨o, there, used⟩⟩)
      have rooted : ∀ r ∈ c.roots, Supplied env v.fileAt? r := roots ▸ tracks.complete.rooted id o there
      have rooted' : ∀ r ∈ c.roots, Supplied env w.fileAt? r := roots ▸ next.complete.rooted id o here
      have loaded : (v.fileAt? path).isSome = true := by
        rw [tracks.file]
        rfl
      have same := face_apart tracks.complete next.complete tracks.fills fills next.bindings rooted rooted' loaded apart
      exact ⟨o, here, name, roots, face.trans same.symm⟩
  · intro id apart
    have same := tracks.others id apart
    have out : id ∉ v.dependentsOf path := by
      rw [mem_dependentsOf, tracks.enrolled, uses_congr same, ← mem_dependentsOf]
      exact apart
    rw [revises.contexts, if_neg out, same]

theorem follows_tracks (grown : Grown env s) (complete : Complete env s)
    (opened : ∀ id c, s.context? id = some c → id ∈ s.enrolled) {texts : List Bytes}
    (follows : Follows env s ((text :: texts).map fun text => .call (.change path text)) u) :
    Tracks env s path text u := by
  induction texts generalizing text u with
  | nil =>
    cases follows with
    | call c before settles =>
      cases before
      obtain ⟨works, tasks, armed⟩ := settles
      have poised := change_poised complete.sound complete.armed path text
      exact (poised_tracks complete opened (grown.change complete.running path text) poised works tasks armed).1
  | cons earlier texts ih =>
    cases follows with
    | call c before settles =>
      exact (ih before).change settles

end Tracking

theorem Tracks.shows {text : Bytes} (tracks : Tracks env s path text t) (tracks' : Tracks env s path text u)
    (id : ContextId) : (t.snapshot? id).map Snapshot.content = (u.snapshot? id).map Snapshot.content := by
  by_cases user : id ∈ s.dependentsOf path
  · obtain ⟨c, found, -⟩ := uses_iff.mp (mem_dependentsOf.mp user).2
    obtain ⟨o, there, -, roots, face⟩ := tracks.users id user c found
    obtain ⟨o', there', -, roots', face'⟩ := tracks'.users id user c found
    have rooted : ∀ r ∈ c.roots, Supplied env t.fileAt? r := roots ▸ tracks.complete.rooted id o there
    have rooted' : ∀ r ∈ c.roots, Supplied env u.fileAt? r := roots' ▸ tracks'.complete.rooted id o' there'
    have merged := merge_agrees tracks.complete tracks'.complete tracks.fills tracks'.fills
      (tracks'.bindings.trans tracks.bindings.symm) c.name rooted rooted' fun _ => tracks'.file.trans tracks.file.symm
    have same : o'.face = o.face := face'.trans ((face_renewed rfl rfl merged).trans face.symm)
    rw [snapshot?, there, snapshot?, there']
    exact (congrArg Prod.snd same).symm
  · rw [snapshot?, snapshot?, tracks.others id user, tracks'.others id user]

-- Contexts have been opened, each with success, and files edited, in whatever order, and the source has stayed what it
-- was. Texts of a file that come in a burst then leave every context with the tree, the files and the diagnostics that the
-- texts leave when each of them can be waited for, and the burst has the contexts that use the file merged once and the
-- others not at all. Nothing else is to be done when the burst begins, as its merges would be counted too.
theorem burst_coalesces (grown : Grown env s) (rests : s.tasks = [] ∧ s.armed = [])
    (opened : ∀ id c, s.context? id = some c → id ∈ s.enrolled) {texts : List Bytes} (sent : texts ≠ [])
    (works : Works env (s.burst path texts) t) (ended : t.tasks = [] ∧ t.armed = [])
    (follows : Follows env s (texts.reverse.map fun text => .call (.change path text)) u) :
    (t.enrolled = s.enrolled ∧ u.enrolled = s.enrolled) ∧
    (∀ id, (t.snapshot? id).map Snapshot.content = (u.snapshot? id).map Snapshot.content) ∧
    ∀ id c, s.context? id = some c → ∃ o, t.context? id = some o ∧
      if s.uses id path then o.generation = c.generation + 1 ∧ o.snapshot.map (·.generation) = some o.generation
      else o = c := by
  obtain ⟨before, text, rfl⟩ := (List.eq_nil_or_concat' texts).resolve_left sent
  rw [List.reverse_append] at follows
  have complete := grown.complete rests.1 rests.2 opened
  have poised := burst_poised complete.sound rests.2 path before text
  obtain ⟨tracks, revises⟩ := poised_tracks complete opened (grown.burst complete.running path _) poised works ended.1 ended.2
  have tracks' := follows_tracks grown complete opened follows
  refine ⟨⟨tracks.enrolled, tracks'.enrolled⟩, tracks.shows tracks', fun id c found => ?_⟩
  have after := revises.contexts id
  have user : id ∈ s.dependentsOf path ↔ s.uses id path = true := by
    rw [mem_dependentsOf]
    exact and_iff_right (opened id c found)
  split
  · rename_i uses
    rw [if_pos (user.mpr uses), found] at after
    exact ⟨c.renewed t, after, rfl, rfl⟩
  · rename_i apart
    rw [if_neg (mt user.mp apart), found] at after
    exact ⟨c, after, rfl⟩

def shelf : Environment :=
  ⟨.ofTable [(utf8 "/a.dts", utf8 "#include \"b.dtsi\"\n"), (utf8 "/b.dtsi", []), (utf8 "/c.dtsi", [])], [], fun _ => []⟩

def openOther : Call := .openContext [] (utf8 "/b.dtsi") []

def twoBoards : Session := settle shelf 40 (openOther.apply (settle shelf 40 (openBoard.apply empty)))

def away : Bytes := utf8 "#include \"c.dtsi\"\n"
def back : Bytes := utf8 "#include \"b.dtsi\"\n/ { };\n"

def hurried : Session := settle shelf 40 (twoBoards.burst (utf8 "/a.dts") [away, back])

def paused : Session :=
  settle shelf 40 ((Call.change (utf8 "/a.dts") back).apply
    (settle shelf 40 ((Call.change (utf8 "/a.dts") away).apply twoBoards)))

theorem twoBoards_grown : Grown shelf twoBoards := by
  have first : Grown shelf (settle shelf 40 (openBoard.apply empty)) :=
    (Grown.start.call rfl (c := openBoard) rfl).works (settle_works shelf 40 _)
  have running : (settle shelf 40 (openBoard.apply empty)).crash = none := Option.isNone_iff_eq_none.mp (by decide +kernel)
  exact (first.call running (c := openOther) rfl).works (settle_works shelf 40 _)

theorem twoBoards_opened : ∀ id c, twoBoards.context? id = some c → id ∈ twoBoards.enrolled := by
  have both : twoBoards.contexts.size = 2 ∧ twoBoards.enrolled = [0, 1] := by decide +kernel
  intro id c found
  have bound := (Array.getElem?_eq_some_iff.mp found).1
  rw [both.1] at bound
  rw [both.2, List.mem_pair]
  exact Nat.le_one_iff_eq_zero_or_eq_one.mp (Nat.le_of_lt_succ bound)

theorem twoBoards_rests : twoBoards.tasks = [] ∧ twoBoards.armed = [] :=
  ⟨List.isEmpty_iff.mp (by decide +kernel), List.isEmpty_iff.mp (by decide +kernel)⟩

-- Where the texts are waited for, the file is loaded and stays; no context shows it.
theorem detour_coalesced :
    (Grown shelf twoBoards ∧ Works shelf (twoBoards.burst (utf8 "/a.dts") [away, back]) hurried ∧
      Follows shelf twoBoards ([away, back].reverse.map fun text => .call (.change (utf8 "/a.dts") text)) paused) ∧
    ((hurried.fileAt? (utf8 "/c.dtsi")).isSome = false ∧ (paused.fileAt? (utf8 "/c.dtsi")).isSome = true) ∧
    (∀ id, (hurried.snapshot? id).map Snapshot.content = (paused.snapshot? id).map Snapshot.content) ∧
    (hurried.context? 0).map (·.generation) = some 2 ∧ hurried.context? 1 = twoBoards.context? 1 := by
  have ended : hurried.tasks = [] ∧ hurried.armed = [] :=
    ⟨List.isEmpty_iff.mp (by decide +kernel), List.isEmpty_iff.mp (by decide +kernel)⟩
  have works : Works shelf (twoBoards.burst (utf8 "/a.dts") [away, back]) hurried := settle_works shelf 40 _
  have follows :
      Follows shelf twoBoards ([away, back].reverse.map fun text => .call (.change (utf8 "/a.dts") text)) paused :=
    .call (.change (utf8 "/a.dts") back)
      (.call (.change (utf8 "/a.dts") away) .start (settles_settle (by decide +kernel))) (settles_settle (by decide +kernel))
  obtain ⟨-, shows, merges⟩ :=
    burst_coalesces twoBoards_grown twoBoards_rests twoBoards_opened (List.cons_ne_nil _ _) works ended follows
  refine ⟨⟨twoBoards_grown, works, follows⟩, by decide +kernel, shows, ?_, ?_⟩
  · have before : (twoBoards.context? 0).map (·.generation) = some 1 := by decide +kernel
    have uses : twoBoards.uses 0 (utf8 "/a.dts") = true := by decide +kernel
    obtain ⟨c, found, first⟩ := Option.map_eq_some_iff.mp before
    obtain ⟨o, after, once⟩ := merges 0 c found
    rw [if_pos uses, first] at once
    rw [after, Option.map_some, once.1]
  · have apart : twoBoards.uses 1 (utf8 "/a.dts") = false := by decide +kernel
    have there : (twoBoards.context? 1).isSome = true := by decide +kernel
    obtain ⟨c, found⟩ := Option.isSome_iff_exists.mp there
    obtain ⟨o, after, same⟩ := merges 1 c found
    rw [apart, if_neg Bool.false_ne_true] at same
    rw [after, found, same]

-- The board has a node whose register list is left, until the next text comes.
def overrunning : Bytes :=
  utf8 "/ \x7b #address-cells = <0x7fffffffffffffff>; #size-cells = <0x7fffffffffffffff>; n \x7b reg = <1 2>; \x7d; \x7d;"

def overrunFile : File := .ofText shelf.source shelf.includeDirs (utf8 "/a.dts") overrunning

theorem overrunFile_alone {p : Bytes} (reached : Reaches (Merge.fileAt? [overrunFile]) [utf8 "/a.dts"] p) : p = utf8 "/a.dts" := by
  obtain ⟨r, root, led⟩ := reached
  induction led with
  | refl => exact List.mem_singleton.mp root
  | tail _ step _ =>
    obtain ⟨f, i, found, member, kind, target⟩ := step
    have plain : includesOf overrunFile = [] := by decide +kernel
    cases List.mem_singleton.mp (List.mem_of_find?_eq_some found)
    have named := (mem_includesOf (f := overrunFile) ⟨_, _, _, rfl⟩).mpr ⟨i, member, kind, target⟩
    rw [plain] at named
    cases named

-- If it came to rest, its check would have passed.
theorem overrunning_unsettled {v : Session} : ¬ Settles shelf twoBoards (.change (utf8 "/a.dts") overrunning) v := by
  rintro ⟨works, tasks, armed⟩
  have complete := twoBoards_grown.complete twoBoards_rests.1 twoBoards_rests.2 twoBoards_opened
  have poised := change_poised complete.sound complete.armed (utf8 "/a.dts") overrunning
  obtain ⟨tracks, revises⟩ := poised_tracks complete twoBoards_opened
    (twoBoards_grown.change complete.running (utf8 "/a.dts") overrunning) poised works tasks armed
  have board : (twoBoards.context? 0).map (fun c => (c.name, c.roots)) = some ([], [utf8 "/a.dts"]) := by decide +kernel
  have user : 0 ∈ twoBoards.dependentsOf (utf8 "/a.dts") := by decide +kernel
  have unbound : twoBoards.bindings = none := Option.isNone_iff_eq_none.mp (by decide +kernel)
  obtain ⟨c, found, made⟩ := Option.map_eq_some_iff.mp board
  obtain ⟨name, roots⟩ := Prod.mk.inj made
  have merged : c.remerged v = Tree.merge [] [utf8 "/a.dts"] [overrunFile] none := by
    rw [Context.remerged, name, roots, tracks.bindings, unbound]
    refine Tree.merge_reached fun p reached => ?_
    rw [overrunFile_alone reached, fileAt_table tracks.complete.sound.tended.filed tracks.complete.parsed, tracks.file]
    rfl
  have fails : (Tree.merge [] [utf8 "/a.dts"] [overrunFile] none).check.toOption.isNone = true := by decide +kernel
  obtain ⟨told, passes⟩ := revises.passes 0 user c found
  rw [← merged, passes] at fails
  cases fails

theorem burst_hides_overrun : ¬ ∀ (env : Environment) (s t : Session) (path : Bytes) (texts : List Bytes), Grown env s →
    (s.tasks = [] ∧ s.armed = []) → (∀ id c, s.context? id = some c → id ∈ s.enrolled) → texts ≠ [] →
    Works env (s.burst path texts) t → (t.tasks = [] ∧ t.armed = []) →
    ∃ u, Follows env s (texts.reverse.map fun text => .call (.change path text)) u ∧
      ∀ id, (t.snapshot? id).map Snapshot.content = (u.snapshot? id).map Snapshot.content := by
  intro coalesces
  have works : Works shelf (twoBoards.burst (utf8 "/a.dts") [overrunning, back]) _ := settle_works shelf 40 _
  have ended : (settle shelf 40 (twoBoards.burst (utf8 "/a.dts") [overrunning, back])).tasks = [] ∧
      (settle shelf 40 (twoBoards.burst (utf8 "/a.dts") [overrunning, back])).armed = [] :=
    ⟨List.isEmpty_iff.mp (by decide +kernel), List.isEmpty_iff.mp (by decide +kernel)⟩
  obtain ⟨u, follows, -⟩ := coalesces shelf twoBoards _ (utf8 "/a.dts") _ twoBoards_grown twoBoards_rests twoBoards_opened
    (List.cons_ne_nil _ _) works ended
  obtain _ | ⟨_, _ | ⟨_, ⟨⟩, settles⟩, -⟩ := follows
  exact overrunning_unsettled settles

end DeviceTree.Session
