import DeviceTree.Proofs.Session.Outcomes

namespace DeviceTree.Session

variable {env : Environment} {s t : Session}

def onDisk (env : Environment) (p : Bytes) : Option File := (File.read env.source env.includeDirs p).toOption

theorem freshOf_closed {words : Bytes → Option Bytes} {p : Bytes} (closed : words p = none) :
    freshOf env words p = onDisk env p := by
  rw [freshOf, closed]
  rfl

theorem unopened {words : Bytes → Option Bytes} {table : Bytes → Option File}
    (typed : ∀ p, (words p).isSome = true → (table p).isSome = true) {p : Bytes} (absent : table p = none) : words p = none := by
  cases text : words p with
  | none => rfl
  | some w =>
    have loaded := typed p (by rw [text]; rfl)
    rw [absent] at loaded
    cases loaded

-- A file that includes no stored one, and that no stored one includes.
structure Lone (env : Environment) (p : Bytes) (f : File) : Prop where
  leads : ∀ q ∈ includesOf f, q ≠ p → onDisk env q = none
  led : ∀ r g, onDisk env r = some g → p ∈ includesOf g → r = p

-- Two tables of files, of which the second has lone files besides. A file of the first includes one of those only if that is
-- about to be loaded.
structure Apart (env : Environment) (words : Bytes → Option Bytes) (start : List Bytes) (mine other : Bytes → Option File) :
    Prop where
  sub : ∀ p f, mine p = some f → other p = some f
  lone : ∀ p f, mine p = none → other p = some f → words p = none ∧ onDisk env p = some f ∧ Lone env p f
  linked : ∀ p f, mine p = none → other p = some f → ∀ r g, mine r = some g → p ∈ includesOf g → p ∈ start

-- What one table has and the other has not after a load was so before, if the load has seen to no more for the first.
theorem gained_remaining {mine other fresh : Bytes → Option File} {done done' : Bytes → Prop} (fewer : ∀ p, done' p → done p)
    {p : Bytes} {f : File} (absent : gained mine fresh done p = none) (found : gained other fresh done' p = some f) :
    mine p = none ∧ other p = some f := by
  have before : mine p = none := by
    by_contra loaded
    obtain ⟨g, there⟩ := Option.ne_none_iff_exists'.mp loaded
    rw [gained_keeps there] at absent
    cases absent
  rcases gained_some.mp found with there | ⟨-, seen, read⟩
  · exact ⟨before, there⟩
  · rw [gained_some.mpr (.inr ⟨before, fewer p seen, read⟩)] at absent
    cases absent

namespace Apart

variable {words : Bytes → Option Bytes} {start : List Bytes} {mine other : Bytes → Option File}

theorem unread (apart : Apart env words start mine other) {p : Bytes} (absent : other p = none) : mine p = none := by
  cases found : mine p with
  | none => rfl
  | some f =>
    rw [apart.sub p f found] at absent
    cases absent

theorem comes_fewer (apart : Apart env words start mine other) {fresh : Bytes → Option File} {wave : List Bytes} {p : Bytes}
    (comes : Comes other fresh wave p) : Comes mine fresh wave p := by
  induction comes with
  | named member => exact .named member
  | included _ absent read member ih => exact .included ih (apart.unread absent) read member

theorem comes_more (apart : Apart env words start mine other)
    (typed : ∀ p, (words p).isSome = true → (mine p).isSome = true) {wave : List Bytes} {p : Bytes}
    (comes : Comes mine (freshOf env words) wave p) :
    Comes other (freshOf env words) wave p ∨ (other p).isSome = true ∨ onDisk env p = none := by
  induction comes with
  | named member => exact .inl (.named member)
  | @included p q f _ absent read member ih =>
    have stored : onDisk env q = some f := (freshOf_closed (unopened typed absent)).symm.trans read
    cases there : other q with
    | none =>
      rcases ih with comes | loaded | missing
      · exact .inl (.included comes there read member)
      · rw [there] at loaded
        cases loaded
      · rw [stored] at missing
        cases missing
    | some g =>
      obtain ⟨-, read, lone⟩ := apart.lone q g absent there
      rw [read] at stored
      cases Option.some.inj stored
      by_cases same : p = q
      · exact .inr (.inl (by rw [same, there]; rfl))
      · exact .inr (.inr (lone.leads p member same))

theorem loaded (apart : Apart env words start mine other) (typed : ∀ p, (words p).isSome = true → (mine p).isSome = true)
    {done done' : Bytes → Prop} (fewer : ∀ p, done' p → done p)
    (more : ∀ p, done p → done' p ∨ (other p).isSome = true ∨ onDisk env p = none) (first : ∀ p ∈ start, done p) :
    Apart env words [] (gained mine (freshOf env words) done) (gained other (freshOf env words) done') where
  sub p f found := by
    rcases gained_some.mp found with there | ⟨absent, seen, read⟩
    · exact gained_keeps (apart.sub p f there)
    · have stored : onDisk env p = some f := (freshOf_closed (unopened typed absent)).symm.trans read
      cases there : other p with
      | some g =>
        rw [(apart.lone p g absent there).2.1] at stored
        cases Option.some.inj stored
        exact gained_keeps there
      | none =>
        rcases more p seen with seen' | loaded | missing
        · exact gained_some.mpr (.inr ⟨there, seen', read⟩)
        · rw [there] at loaded
          cases loaded
        · rw [stored] at missing
          cases missing
  lone p f absent found := by
    obtain ⟨before, there⟩ := gained_remaining fewer absent found
    exact apart.lone p f before there
  linked p f absent found r g holder member := by
    obtain ⟨before, there⟩ := gained_remaining fewer absent found
    obtain ⟨-, stored, lone⟩ := apart.lone p f before there
    rcases gained_some.mp holder with old | ⟨unread, -, read⟩
    · -- The include is in the file that has just been parsed, so that the lone file was loaded.
      have seen := first p (apart.linked p f before there r g old member)
      rw [gained_some.mpr (.inr ⟨before, seen, (freshOf_closed (unopened typed before)).trans stored⟩)] at absent
      cases absent
    · rw [freshOf_closed (unopened typed unread)] at read
      rw [← lone.led r g read member, holder] at absent
      cases absent

theorem updated (apart : Apart env words [] mine other) (path : Bytes) (text? : Option Bytes) (f? : Option File)
    (wave : ∀ g, f? = some g → ∀ q ∈ includesOf g, q ∈ start) :
    Apart env (Function.update words path text?) start (Function.update mine path f?) (Function.update other path f?) := by
  have elsewhere : ∀ p f, Function.update mine path f? p = none → Function.update other path f? p = some f →
      p ≠ path ∧ mine p = none ∧ other p = some f := by
    intro p f absent found
    rw [Function.update_apply] at absent found
    split at absent
    · rename_i here
      rw [if_pos here, absent] at found
      cases found
    · rename_i there
      rw [if_neg there] at found
      exact ⟨there, absent, found⟩
  refine ⟨fun p f found => ?_, fun p f absent found => ?_, fun p f absent found r g holder member => ?_⟩
  · rw [Function.update_apply] at found ⊢
    split
    · rename_i here
      rwa [if_pos here] at found
    · rename_i there
      rw [if_neg there] at found
      exact apart.sub p f found
  · obtain ⟨there, absent, found⟩ := elsewhere p f absent found
    rw [Function.update_of_ne there]
    exact apart.lone p f absent found
  · obtain ⟨-, absent, found⟩ := elsewhere p f absent found
    rw [Function.update_apply] at holder
    split at holder
    · exact wave g holder p member
    · exact absurd (apart.linked p f absent found r g holder member) List.not_mem_nil

theorem dropped (apart : Apart env words [] mine other) (gone : Bytes → Prop) [DecidablePred gone] :
    Apart env words [] (fun p => if gone p then none else mine p) (fun p => if gone p then none else other p) := by
  have kept : ∀ {table : Bytes → Option File} {p f}, (if gone p then none else table p) = some f → ¬ gone p ∧ table p = some f := by
    intro table p f found
    split at found
    · cases found
    · rename_i there
      exact ⟨there, found⟩
  refine ⟨fun p f found => ?_, fun p f absent found => ?_, fun p f absent found r g holder member => ?_⟩
  · obtain ⟨there, found⟩ := kept found
    rw [if_neg there]
    exact apart.sub p f found
  · obtain ⟨there, found⟩ := kept found
    rw [if_neg there] at absent
    exact apart.lone p f absent found
  · obtain ⟨there, found⟩ := kept found
    rw [if_neg there] at absent
    exact apart.linked p f absent found r g (kept holder).2 member

end Apart

theorem renewed_apart {words : Bytes → Option Bytes} (rest : AtRest s) (rest' : AtRest t)
    (apart : Apart env words [] s.fileAt? t.fileAt?) (bindings : t.bindings = s.bindings) {c : Context}
    (roots : ∀ p ∈ c.roots, s.fileAt? p = none → t.fileAt? p = none) : c.renewed t = c.renewed s := by
  have mine : Merge.fileAt? s.parsedFiles = s.fileAt? := funext (fileAt_table rest.sound.tended.filed rest.parsed)
  have other : Merge.fileAt? t.parsedFiles = t.fileAt? := funext (fileAt_table rest'.sound.tended.filed rest'.parsed)
  have opened := Merge.roots_opened s.parsedFiles c.roots
  have same : c.remerged t = c.remerged s := by
    rw [Context.remerged, bindings]
    refine Tree.merge_local ⟨fun p present => ?_, fun p missed => ?_⟩ fun p missed => ?_
    · have loaded := (opened.entered p present).2.1
      rw [mine] at loaded
      obtain ⟨f, found⟩ := Option.isSome_iff_exists.mp loaded
      rw [mine, other, found, apart.sub p f found]
    · obtain ⟨absent, q, -, step⟩ := opened.missed p missed
      rw [mine] at absent step
      rw [other]
      cases there : t.fileAt? p with
      | none => rfl
      | some f =>
        obtain ⟨g, holder, member⟩ := (includes_iff rest.parsed).mp step
        exact absurd (apart.linked p f absent there q g holder member) List.not_mem_nil
    · obtain ⟨absent, root⟩ := opened.missedRoots p missed
      rw [mine] at absent
      rw [other]
      exact roots p root absent
  rw [Context.renewed, Context.renewed, same]

def renumber (n id : Nat) : Nat := if id < n then id else id + 1

theorem renumber_injective (n : Nat) : Function.Injective (renumber n) := by
  intro a b same
  unfold renumber at same
  split at same <;> split at same <;> omega

def Call.renumber (n : ContextId) : Call → Call
  | .remove id => .remove (Session.renumber n id)
  | c => c

section Rebegun

variable (begun : ContextId → List Bytes)

theorem Gains.rebegun {words : Bytes → Option Bytes} {table : Bytes → Option File} {names done : Bytes → Prop}
    (gains : Gains env words table names done t) : Gains { env with begun } words table names done t :=
  ⟨gains.texts, gains.files, gains.known⟩

theorem Lone.rebegun {p : Bytes} {f : File} (lone : Lone env p f) : Lone { env with begun } p f :=
  ⟨lone.leads, lone.led⟩

theorem Apart.rebegun {words : Bytes → Option Bytes} {start : List Bytes} {mine other : Bytes → Option File}
    (apart : Apart env words start mine other) : Apart { env with begun } words start mine other :=
  ⟨apart.sub, fun p f absent found =>
    let ⟨closed, stored, lone⟩ := apart.lone p f absent found
    ⟨closed, stored, lone.rebegun begun⟩, apart.linked⟩

end Rebegun

-- Reading begins alike for the contexts that stand for each other.
def Environment.renumber (n : ContextId) (env : Environment) : Environment :=
  { env with begun := fun id => env.begun (if id < n then id else id - 1) }

theorem Gains.renumbered {n : ContextId} {words : Bytes → Option Bytes} {table : Bytes → Option File} {names done : Bytes → Prop}
    (gains : Gains (env.renumber n) words table names done t) : Gains env words table names done t :=
  gains.rebegun env.begun

structure Mirrors (n : ContextId) (s t : Session) : Prop where
  enrolled : t.enrolled = s.enrolled.map (renumber n)
  current : t.current = s.current.map (renumber n)
  contexts : ∀ id ∈ s.enrolled, t.context? (renumber n id) = s.context? id

-- Two sessions that go on alike: the second has lone files besides, which no open context uses, and once failed to open a
-- context.
structure Shadows (env : Environment) (n : ContextId) (s t : Session) : Prop extends Mirrors n s t where
  texts : t.openText? = s.openText?
  bindings : t.bindings = s.bindings
  apart : Apart env s.openText? [] s.fileAt? t.fileAt?
  unused : ∀ p f, s.fileAt? p = none → t.fileAt? p = some f → s.isUsed p = false
  size : t.contexts.size = s.contexts.size + 1
  past : n ≤ s.contexts.size

theorem Shadows.rebegun {n : ContextId} (shadows : Shadows env n s t) (begun : ContextId → List Bytes) :
    Shadows { env with begun } n s t :=
  { shadows with apart := shadows.apart.rebegun begun }

theorem Mirrors.isUsed {n : ContextId} (mirrors : Mirrors n s t) (p : Bytes) : t.isUsed p = s.isUsed p := by
  rw [Bool.eq_iff_iff, isUsed_iff, isUsed_iff, mirrors.enrolled]
  constructor
  · rintro ⟨id, member, c, found, there⟩
    obtain ⟨j, listed, rfl⟩ := List.mem_map.mp member
    exact ⟨j, listed, c, mirrors.contexts j listed ▸ found, there⟩
  · rintro ⟨id, member, c, found, there⟩
    exact ⟨_, List.mem_map_of_mem member, c, (mirrors.contexts id member).trans found, there⟩

theorem Mirrors.mem_dependentsOf {n : ContextId} (mirrors : Mirrors n s t) (path : Bytes) {id : ContextId}
    (member : id ∈ s.enrolled) : renumber n id ∈ t.dependentsOf path ↔ id ∈ s.dependentsOf path := by
  rw [Session.mem_dependentsOf, Session.mem_dependentsOf, uses_iff, uses_iff, mirrors.contexts id member, mirrors.enrolled]
  exact and_congr_left fun _ => ⟨fun _ => member, fun _ => List.mem_map_of_mem member⟩

section Stepping

variable {n : ContextId} {s' t' : Session}

theorem size_of_contexts (same : ∀ id, (s'.context? id).isSome = (s.context? id).isSome) : s'.contexts.size = s.contexts.size := by
  have beyond : ∀ id, s'.contexts.size ≤ id ↔ s.contexts.size ≤ id := by
    intro id
    rw [← Array.getElem?_eq_none_iff, ← Array.getElem?_eq_none_iff, ← Option.isNone_iff_eq_none, ← Option.isNone_iff_eq_none,
      ← Option.not_isSome, ← Option.not_isSome]
    exact (congrArg (fun b => (!b) = true) (same id)).to_iff
  exact Nat.le_antisymm ((beyond _).mpr (Nat.le_refl _)) ((beyond _).mp (Nat.le_refl _))

theorem size_of_opening {c : Context}
    (contexts : ∀ id, s'.context? id = if id = s.contexts.size then some c else s.context? id) :
    s'.contexts.size = s.contexts.size + 1 := by
  rw [← Array.size_push c]
  refine size_of_contexts (s := { s with contexts := s.contexts.push c }) fun id => ?_
  rw [contexts]
  exact congrArg Option.isSome Array.getElem?_push.symm

theorem size_of_marking {id : ContextId} {c o : Context} (found : s.context? id = some c)
    (contexts : ∀ j, s'.context? j = if id = j then some o else s.context? j) : s'.contexts.size = s.contexts.size := by
  refine size_of_contexts fun j => ?_
  rw [contexts]
  split
  · rename_i mine
    rw [← mine, found]
    rfl
  · rfl

theorem Revises.size {ids : List ContextId} (revises : Revises s ids s') : s'.contexts.size = s.contexts.size := by
  refine size_of_contexts fun id => ?_
  rw [revises.contexts]
  split
  · exact Option.isSome_map
  · rfl

theorem Shadows.revised {ids ids' : List ContextId} (shadows : Shadows env n s t) (rest : AtRest s) (rested : AtRest s')
    (rested' : AtRest t') (revises : Revises s ids s') (revises' : Revises t ids' t')
    (listed : ∀ id ∈ s.enrolled, renumber n id ∈ ids' ↔ id ∈ ids) (texts : t'.openText? = s'.openText?)
    (bindings : t'.bindings = s'.bindings) (apart : Apart env s'.openText? [] s'.fileAt? t'.fileAt?)
    (unused : ∀ p f, s'.fileAt? p = none → t'.fileAt? p = some f → s.isUsed p = false) : Shadows env n s' t' where
  enrolled := by rw [revises'.enrolled, revises.enrolled, shadows.enrolled]
  current := by rw [revises'.current, revises.current, shadows.current]
  contexts id member := by
    rw [revises.enrolled] at member
    obtain ⟨c, found, -⟩ := rest.sound.held.enrolled id member
    have depends := rest.depends id member c found
    rw [revises'.contexts, revises.contexts, shadows.contexts id member, found]
    simp only [listed id member, Option.map_some]
    rw [renewed_apart rested rested' apart bindings fun p root absent => ?_]
    by_contra loaded
    obtain ⟨f, there⟩ := Option.ne_none_iff_exists'.mp loaded
    have needless := unused p f absent there
    rw [isUsed_iff.mpr ⟨id, member, c, found, depends.roots p root⟩] at needless
    cases needless
  texts := texts
  bindings := bindings
  apart := apart
  unused p f absent there := by
    rw [← Bool.not_eq_true]
    intro used
    have needless := unused p f absent there
    obtain ⟨id, member, c, found, inside⟩ := isUsed_iff.mp used
    rw [revises.enrolled] at member
    rw [revises.contexts] at found
    split at found
    · obtain ⟨o, before, rfl⟩ := Option.map_eq_some_iff.mp found
      rcases (mem_renewed_deps rested.sound.tended.filed rested.parsed o p).mp inside with root | ⟨-, loaded⟩
      · rw [isUsed_iff.mpr ⟨id, member, o, before, (rest.depends id member o before).roots p root⟩] at needless
        cases needless
      · rw [absent] at loaded
        cases loaded
    · rw [isUsed_iff.mpr ⟨id, member, c, found, inside⟩] at needless
      cases needless
  size := by rw [revises'.size, revises.size, shadows.size]
  past := by
    rw [revises.size]
    exact shadows.past

theorem Shadows.gained {words : Bytes → Option Bytes} {mine other : Bytes → Option File} {names names' done done' : Bytes → Prop}
    {start : List Bytes} {ids ids' : List ContextId} (shadows : Shadows env n s t) (rest : AtRest s) (rested : AtRest s')
    (rested' : AtRest t') (gains : Gains env words mine names done s') (gains' : Gains env words other names' done' t')
    (apart : Apart env words start mine other) (typed : ∀ p, (words p).isSome = true → (mine p).isSome = true)
    (fewer : ∀ p, done' p → done p) (more : ∀ p, done p → done' p ∨ (other p).isSome = true ∨ onDisk env p = none)
    (first : ∀ p ∈ start, done p) (revises : Revises s ids s') (revises' : Revises t ids' t')
    (listed : ∀ id ∈ s.enrolled, renumber n id ∈ ids' ↔ id ∈ ids) (bindings : t'.bindings = s'.bindings)
    (unused : ∀ p f, mine p = none → other p = some f → s.isUsed p = false) : Shadows env n s' t' := by
  have texts : s'.openText? = words := funext gains.texts
  have files : s'.fileAt? = Session.gained mine (freshOf env words) done := funext gains.files
  have files' : t'.fileAt? = Session.gained other (freshOf env words) done' := funext gains'.files
  refine shadows.revised rest rested rested' revises revises' listed ?_ bindings ?_ fun p f absent found => ?_
  · rw [texts]
    exact funext gains'.texts
  · rw [texts, files, files']
    exact apart.loaded typed fewer more first
  · rw [files] at absent
    rw [files'] at found
    obtain ⟨absent, found⟩ := gained_remaining fewer absent found
    exact unused p f absent found

theorem Shadows.edited {path : Bytes} {text? : Option Bytes} {f? : Option File} {names names' done done' : Bytes → Prop}
    {start : List Bytes} {ids ids' : List ContextId} (shadows : Shadows env n s t) (rest : AtRest s) (rested : AtRest s')
    (rested' : AtRest t') (given : text?.isSome = true → f?.isSome = true) (wave : ∀ g, f? = some g → ∀ q ∈ includesOf g, q ∈ start)
    (gains : Gains env (Function.update s.openText? path text?) (Function.update s.fileAt? path f?) names done s')
    (gains' : Gains env (Function.update t.openText? path text?) (Function.update t.fileAt? path f?) names' done' t')
    (fewer : ∀ p, done' p → done p)
    (more : ∀ p, done p → done' p ∨ (Function.update t.fileAt? path f? p).isSome = true ∨ onDisk env p = none)
    (first : ∀ p ∈ start, done p) (revises : Revises s ids s') (revises' : Revises t ids' t')
    (listed : ∀ id ∈ s.enrolled, renumber n id ∈ ids' ↔ id ∈ ids) (bindings : s'.bindings = s.bindings)
    (bindings' : t'.bindings = t.bindings) : Shadows env n s' t' := by
  rw [shadows.texts] at gains'
  refine shadows.gained rest rested rested' gains gains' (shadows.apart.updated path text? f? wave) (update_typed rest given) fewer
    more first revises revises' listed (by rw [bindings, bindings', shadows.bindings]) fun p f absent found => ?_
  rw [Function.update_apply] at absent found
  split at absent
  · rename_i here
    rw [if_pos here, absent] at found
    cases found
  · rename_i there
    rw [if_neg there] at found
    exact shadows.unused p f absent found

theorem Shadows.readable_iff (shadows : Shadows env n s t) (rest : AtRest s) (roots : List Bytes) :
    (∀ p ∈ roots, t.fileAt? p = none → (freshOf env t.openText? p).isSome = true) ↔
      ∀ p ∈ roots, s.fileAt? p = none → (freshOf env s.openText? p).isSome = true := by
  rw [shadows.texts]
  refine forall₂_congr fun p _ => ⟨fun readable absent => ?_, fun readable absent => readable (shadows.apart.unread absent)⟩
  cases found : t.fileAt? p with
  | none => exact readable found
  | some f =>
    rw [freshOf_closed (unopened rest.typed absent), (shadows.apart.lone p f absent found).2.1]
    rfl

theorem renumber_past (past : n ≤ s.contexts.size) : renumber n s.contexts.size = s.contexts.size + 1 :=
  if_neg (Nat.not_lt.mpr past)

theorem Shadows.renumber_ne (shadows : Shadows env n s t) (rest : AtRest s) {id : ContextId} (member : id ∈ s.enrolled) :
    renumber n id ≠ t.contexts.size := by
  rw [shadows.size, ← renumber_past shadows.past]
  exact fun same => Nat.ne_of_lt (rest.bounded member) (renumber_injective n same)

theorem Shadows.opened {name base : Bytes} {overlays : List Bytes} (shadows : Shadows env n s t) (rest : AtRest s)
    (rested : AtRest s') (rested' : AtRest t')
    (readable : ∀ p ∈ base :: overlays, s.fileAt? p = none → (freshOf env s.openText? p).isSome = true)
    (gains : Gains env s.openText? s.fileAt? s.Knows (Comes s.fileAt? (freshOf env s.openText?) (base :: overlays)) s')
    (gains' : Gains env t.openText? t.fileAt? t.Knows (Comes t.fileAt? (freshOf env t.openText?) (base :: overlays)) t')
    (enrolled : s'.enrolled = s.enrolled ++ [s.contexts.size]) (enrolled' : t'.enrolled = t.enrolled ++ [t.contexts.size])
    (contexts : ∀ id, s'.context? id =
      if id = s.contexts.size then some ((Context.opening name base overlays).renewed s') else s.context? id)
    (contexts' : ∀ id, t'.context? id =
      if id = t.contexts.size then some ((Context.opening name base overlays).renewed t') else t.context? id)
    (current : s'.current = s.current) (current' : t'.current = t.current) (bindings : s'.bindings = s.bindings)
    (bindings' : t'.bindings = t.bindings) : Shadows env n s' t' := by
  rw [shadows.texts] at gains'
  have same : t'.bindings = s'.bindings := by rw [bindings, bindings', shadows.bindings]
  have texts : s'.openText? = s.openText? := funext gains.texts
  have remaining : ∀ p f, s'.fileAt? p = none → t'.fileAt? p = some f → s.fileAt? p = none ∧ t.fileAt? p = some f := by
    intro p f absent found
    rw [gains.files] at absent
    rw [gains'.files] at found
    exact gained_remaining (fun _ => shadows.apart.comes_fewer) absent found
  have apart : Apart env s'.openText? [] s'.fileAt? t'.fileAt? := by
    rw [texts, funext gains.files, funext gains'.files]
    exact shadows.apart.loaded rest.typed (fun _ => shadows.apart.comes_fewer) (fun _ => shadows.apart.comes_more rest.typed)
      nofun
  -- Every root has been read.
  have rooted : ∀ p ∈ base :: overlays, s'.fileAt? p ≠ none := by
    intro p root absent
    have before : s.fileAt? p = none := by
      cases found : s.fileAt? p with
      | none => rfl
      | some f =>
        rw [gains.files, gained_keeps found] at absent
        cases absent
    obtain ⟨f, read⟩ := Option.isSome_iff_exists.mp (readable p root before)
    rw [gains.files, gained_some.mpr (.inr ⟨before, .named root, read⟩)] at absent
    cases absent
  refine ⟨⟨?_, ?_, fun id member => ?_⟩, ?_, same, apart, fun p f absent found => ?_, ?_, ?_⟩
  · rw [enrolled', enrolled, shadows.enrolled, shadows.size, List.map_append, List.map_singleton, renumber_past shadows.past]
  · rw [current', current, shadows.current]
  · rw [enrolled] at member
    rcases List.mem_append.mp member with old | new
    · rw [contexts', if_neg (shadows.renumber_ne rest old), contexts, if_neg (Nat.ne_of_lt (rest.bounded old)),
        shadows.contexts id old]
    · rw [List.mem_singleton.mp new, contexts', contexts, if_pos rfl, renumber_past shadows.past, ← shadows.size, if_pos rfl,
        renewed_apart (c := Context.opening name base overlays) rested rested' apart same
          fun p root absent => absurd absent (rooted p root)]
  · rw [texts]
    exact funext gains'.texts
  · rw [← Bool.not_eq_true]
    intro used
    obtain ⟨before, there⟩ := remaining p f absent found
    have needless := shadows.unused p f before there
    obtain ⟨id, member, c, shown, inside⟩ := isUsed_iff.mp used
    rw [enrolled] at member
    rcases List.mem_append.mp member with old | new
    · rw [contexts, if_neg (Nat.ne_of_lt (rest.bounded old))] at shown
      rw [isUsed_iff.mpr ⟨id, old, c, shown, inside⟩] at needless
      cases needless
    · rw [contexts, if_pos (List.mem_singleton.mp new)] at shown
      cases Option.some.inj shown
      rcases (mem_renewed_deps rested.sound.tended.filed rested.parsed _ p).mp inside with root | ⟨-, loaded⟩
      · exact rooted p root absent
      · rw [absent] at loaded
        cases loaded
  · rw [size_of_opening contexts', size_of_opening contexts, shadows.size]
  · rw [size_of_opening contexts]
    exact Nat.le_succ_of_le shadows.past

theorem Shadows.givesUp (shadows : Shadows env n s t) (rest : AtRest s) (roots : List Bytes) (p : Bytes) :
    GivesUp (env.renumber n) (.openContext t.contexts.size) t.fileAt? (freshOf env s.openText?) roots p ↔
      GivesUp env (.openContext s.contexts.size) s.fileAt? (freshOf env s.openText?) roots p := by
  have begun : Goal.begun (env.renumber n) (.openContext t.contexts.size) = Goal.begun env (.openContext s.contexts.size) := by
    have late : ¬ s.contexts.size + 1 < n := Nat.not_lt.mpr (Nat.le_succ_of_le shadows.past)
    simp only [Goal.begun, Environment.renumber, shadows.size, if_neg late, Nat.add_sub_cancel]
  unfold GivesUp
  rw [begun]
  refine and_congr_right fun _ => exists_congr fun q => and_congr_right fun _ => and_congr_right fun _ =>
    and_congr_left fun fails => ⟨shadows.apart.unread, fun absent => ?_⟩
  cases found : t.fileAt? q with
  | none => rfl
  | some f =>
    rw [freshOf_closed (unopened rest.typed absent), (shadows.apart.lone q f absent found).2.1] at fails
    cases fails

theorem Shadows.refused {name base : Bytes} {overlays : List Bytes} {failure failure' : LoadError} {names names' done : Bytes → Prop}
    (shadows : Shadows env n s t) (rest : AtRest s) (gains : Gains env s.openText? s.fileAt? names done s')
    (gains' : Gains env t.openText? t.fileAt? names' done t') (enrolled : s'.enrolled = s.enrolled)
    (enrolled' : t'.enrolled = t.enrolled)
    (contexts : ∀ id, s'.context? id = if id = s.contexts.size
      then some { Context.opening name base overlays with failure := some failure } else s.context? id)
    (contexts' : ∀ id, t'.context? id = if id = t.contexts.size
      then some { Context.opening name base overlays with failure := some failure' } else t.context? id)
    (current : s'.current = s.current) (current' : t'.current = t.current) (bindings : s'.bindings = s.bindings)
    (bindings' : t'.bindings = t.bindings) : Shadows env n s' t' := by
  rw [shadows.texts] at gains'
  have texts : s'.openText? = s.openText? := funext gains.texts
  have kept : ∀ id ∈ s.enrolled, s'.context? id = s.context? id := by
    intro id member
    rw [contexts, if_neg (Nat.ne_of_lt (rest.bounded member))]
  refine ⟨⟨?_, ?_, fun id member => ?_⟩, ?_, ?_, ?_, fun p f absent found => ?_, ?_, ?_⟩
  · rw [enrolled', enrolled, shadows.enrolled]
  · rw [current', current, shadows.current]
  · rw [enrolled] at member
    rw [contexts', if_neg (shadows.renumber_ne rest member), kept id member, shadows.contexts id member]
  · rw [texts]
    exact funext gains'.texts
  · rw [bindings', bindings, shadows.bindings]
  · rw [texts, funext gains.files, funext gains'.files]
    exact shadows.apart.loaded rest.typed (fun _ => id) (fun _ => .inl) nofun
  · rw [gains.files] at absent
    rw [gains'.files] at found
    obtain ⟨absent, found⟩ := gained_remaining (fun _ => id) absent found
    have needless := shadows.unused p f absent found
    rw [← Bool.not_eq_true] at needless ⊢
    intro used
    obtain ⟨id, member, c, shown, inside⟩ := isUsed_iff.mp used
    rw [enrolled] at member
    exact needless (isUsed_iff.mpr ⟨id, member, c, kept id member ▸ shown, inside⟩)
  · rw [size_of_opening contexts', size_of_opening contexts, shadows.size]
  · rw [size_of_opening contexts]
    exact Nat.le_succ_of_le shadows.past

theorem Shadows.removed {id : ContextId} {c : Context} (shadows : Shadows env n s t)
    (gains : Gains env s.openText?
      (fun p => if p ∈ c.deps ∧ s.openText? p = none ∧ s'.isUsed p = false then none else s.fileAt? p)
      (fun p => s.Knows p ∧ ¬ (p ∈ c.deps ∧ s.openText? p = none ∧ s'.isUsed p = false)) (fun _ => False) s')
    (gains' : Gains env t.openText?
      (fun p => if p ∈ c.deps ∧ t.openText? p = none ∧ t'.isUsed p = false then none else t.fileAt? p)
      (fun p => t.Knows p ∧ ¬ (p ∈ c.deps ∧ t.openText? p = none ∧ t'.isUsed p = false)) (fun _ => False) t')
    (found : s.context? id = some c) (found' : t.context? (renumber n id) = some c)
    (enrolled : s'.enrolled = s.enrolled.filter (· != id)) (enrolled' : t'.enrolled = t.enrolled.filter (· != renumber n id))
    (contexts : ∀ j, s'.context? j = if id = j then some { c with removed := true } else s.context? j)
    (contexts' : ∀ j, t'.context? j = if renumber n id = j then some { c with removed := true } else t.context? j)
    (current : s'.current = if s.current = some id then none else s.current)
    (current' : t'.current = if t.current = some (renumber n id) then none else t.current)
    (bindings : s'.bindings = s.bindings) (bindings' : t'.bindings = t.bindings) : Shadows env n s' t' := by
  have injective : ∀ j, renumber n j = renumber n id ↔ j = id := fun j => (renumber_injective n).eq_iff
  have listed : ∀ j ∈ s'.enrolled, j ∈ s.enrolled ∧ id ≠ j := by
    intro j member
    rw [enrolled, List.mem_filter, bne_iff_ne] at member
    exact ⟨member.1, member.2.symm⟩
  have mirrors : Mirrors n s' t' := by
    refine ⟨?_, ?_, fun j member => ?_⟩
    · rw [enrolled', enrolled, shadows.enrolled, List.filter_map]
      refine congrArg (List.map (renumber n)) (List.filter_congr fun j _ => ?_)
      simp [Function.comp, bne, injective]
    · rw [current', current, shadows.current]
      cases s.current with
      | none => rfl
      | some j =>
        by_cases mine : j = id
        · simp [mine]
        · simp [mine, injective]
    · obtain ⟨old, differ⟩ := listed j member
      rw [contexts', if_neg fun same => differ (renumber_injective n same), contexts, if_neg differ, shadows.contexts j old]
  have same : ∀ p, s'.isUsed p = true → s.isUsed p = true := by
    intro p used
    obtain ⟨j, member, o, shown, inside⟩ := isUsed_iff.mp used
    obtain ⟨old, differ⟩ := listed j member
    rw [contexts, if_neg differ] at shown
    exact isUsed_iff.mpr ⟨j, old, o, shown, inside⟩
  have files : s'.fileAt? = fun p => if p ∈ c.deps ∧ s.openText? p = none ∧ s'.isUsed p = false then none else s.fileAt? p :=
    funext fun p => (gains.files p).trans (gained_none ..)
  have files' : t'.fileAt? = fun p => if p ∈ c.deps ∧ s.openText? p = none ∧ s'.isUsed p = false then none else t.fileAt? p := by
    funext p
    rw [gains'.files, gained_none, shadows.texts, mirrors.isUsed]
  have texts : s'.openText? = s.openText? := funext gains.texts
  refine ⟨mirrors, ?_, ?_, ?_, fun p f absent there => ?_, ?_, ?_⟩
  · rw [texts, funext gains'.texts, shadows.texts]
  · rw [bindings', bindings, shadows.bindings]
  · rw [texts, files, files']
    exact shadows.apart.dropped _
  · rw [files'] at there
    rw [files] at absent
    dsimp only at there absent
    split at there
    · cases there
    · rename_i kept
      rw [if_neg kept] at absent
      have needless := shadows.unused p f absent there
      rw [← Bool.not_eq_true] at needless ⊢
      exact fun used => needless (same p used)
  · rw [size_of_marking found' contexts', size_of_marking found contexts, shadows.size]
  · rw [size_of_marking found contexts]
    exact shadows.past

theorem Outcome.shadows {c : Call} (outcome : Outcome env s s' c) (outcome' : Outcome (env.renumber n) t t' (c.renumber n))
    (shadows : Shadows env n s t) (rest : AtRest s) (rested : AtRest s') (rested' : AtRest t') : Shadows env n s' t' := by
  cases outcome with
  | @changed path text gains revises bindings =>
    change Outcome (env.renumber n) t t' (.change path text) at outcome'
    cases outcome' with
    | changed gains' revises' bindings' =>
      have wave : ∀ g, some (File.ofText env.source env.includeDirs path text) = some g →
          ∀ q ∈ includesOf g, q ∈ includesOf (File.ofText env.source env.includeDirs path text) := by
        rintro g ⟨⟩
        exact fun _ => id
      have apart := shadows.apart.updated path (some text) (some (File.ofText env.source env.includeDirs path text)) wave
      refine shadows.edited rest rested rested' (fun _ => rfl) wave gains gains'.renumbered ?_ ?_ (fun _ => .named) revises revises'
        (fun id member => shadows.mem_dependentsOf path member) bindings bindings'
      · rw [shadows.texts]
        exact fun p => apart.comes_fewer
      · rw [shadows.texts]
        exact fun p => apart.comes_more (update_typed rest fun _ => rfl)
  | @reread path used gains revises bindings =>
    change Outcome (env.renumber n) t t' (.close path) at outcome'
    cases outcome' with
    | reread used' gains' revises' bindings' =>
      have apart : Apart env (Function.update s.openText? path none) [path] (Function.update s.fileAt? path none)
          (Function.update t.fileAt? path none) := shadows.apart.updated path none none nofun
      refine shadows.edited rest rested rested' (by nofun) (by nofun) gains gains'.renumbered ?_ ?_ (fun _ => .named) revises revises'
        (fun id member => shadows.mem_dependentsOf path member) bindings bindings'
      · rw [shadows.texts]
        exact fun p => apart.comes_fewer
      · rw [shadows.texts]
        exact fun p => apart.comes_more (update_typed rest nofun)
    | dropped unused =>
      rw [shadows.isUsed, used] at unused
      cases unused
  | @dropped path unused gains revises bindings =>
    change Outcome (env.renumber n) t t' (.close path) at outcome'
    cases outcome' with
    | reread used =>
      rw [shadows.isUsed, unused] at used
      cases used
    | dropped unused' gains' revises' bindings' =>
      refine shadows.edited rest rested rested' (by nofun) (by nofun) gains gains'.renumbered (fun _ => id) (fun _ => .inl)
        (List.forall_mem_nil _) revises revises' (fun _ _ => ?_) bindings bindings'
      simp only [List.not_mem_nil]
  | @opened name base overlays readable gains enrolled contexts passes current bindings =>
    change Outcome (env.renumber n) t t' (.openContext name base overlays) at outcome'
    cases outcome' with
    | opened readable' gains' enrolled' contexts' passes' current' bindings' =>
      exact shadows.opened rest rested rested' readable gains gains'.renumbered enrolled enrolled' contexts contexts' current current'
        bindings bindings'
    | refused unreadable => exact absurd ((shadows.readable_iff rest _).mpr readable) (not_readable unreadable)
  | @refused name base overlays unreadable gains enrolled contexts current bindings =>
    change Outcome (env.renumber n) t t' (.openContext name base overlays) at outcome'
    cases outcome' with
    | opened readable' => exact absurd ((shadows.readable_iff rest _).mp readable') (not_readable unreadable)
    | refused unreadable' gains' enrolled' contexts' current' bindings' =>
      obtain ⟨failure, contexts⟩ := contexts
      obtain ⟨failure', contexts'⟩ := contexts'
      have gains' := gains'.renumbered
      have same : freshOf (env.renumber n) t.openText? = freshOf env s.openText? := by rw [shadows.texts]; rfl
      simp only [same, shadows.givesUp rest] at gains'
      exact shadows.refused rest gains gains' enrolled enrolled' contexts contexts' current current' bindings bindings'
  | @removed id c member found gains enrolled contexts current bindings =>
    change Outcome (env.renumber n) t t' (.remove (renumber n id)) at outcome'
    cases outcome' with
    | removed member' found' gains' enrolled' contexts' current' bindings' =>
      have same := found'
      rw [shadows.contexts id member, found] at same
      cases Option.some.inj same
      exact shadows.removed gains gains'.renumbered found found' enrolled enrolled' contexts contexts' current current' bindings bindings'
    | kept absent =>
      refine absurd ?_ absent
      rw [shadows.enrolled]
      exact List.mem_map_of_mem member
  | @kept id absent same =>
    change Outcome (env.renumber n) t t' (.remove (renumber n id)) at outcome'
    cases outcome' with
    | removed member' =>
      rw [shadows.enrolled] at member'
      exact absurd ((List.mem_map_of_injective (renumber_injective n)).mp member') absent
    | kept _ same' =>
      rw [same, same']
      exact shadows
  | @bound paths gains revises bindings =>
    change Outcome (env.renumber n) t t' (.loadBindings paths) at outcome'
    cases outcome' with
    | bound gains' revises' bindings' =>
      have gains' := gains'.renumbered
      rw [shadows.texts] at gains'
      refine shadows.gained rest rested rested' gains gains' shadows.apart rest.typed (fun _ => id) (fun _ => .inl) nofun revises
        revises' (fun id member => ?_) (bindings'.trans bindings.symm) shadows.unused
      rw [shadows.enrolled, List.mem_map_of_injective (renumber_injective n)]

end Stepping

theorem Mirrors.uses {n : ContextId} (mirrors : Mirrors n s t) {id : ContextId} (member : id ∈ s.enrolled) (path : Bytes) :
    t.uses (renumber n id) path = s.uses id path := by
  rw [Session.uses, Session.uses, mirrors.contexts id member]

inductive Move where
  | call (c : Call)
  | attend (path : Bytes)

def Move.renumber (n : ContextId) : Move → Move
  | .call c => .call (c.renumber n)
  | .attend path => .attend path

inductive Follows (env : Environment) (s : Session) : List Move → Session → Prop where
  | start : Follows env s [] s
  | call {moves : List Move} {t u : Session} (c : Call) (before : Follows env s moves t) (settles : Settles env t c u) :
      Follows env s (.call c :: moves) u
  | attend {moves : List Move} {t : Session} (path : Bytes) (before : Follows env s moves t) :
      Follows env s (.attend path :: moves) (t.setCurrent path)

section Following

variable {n : ContextId}

theorem Mirrors.contextFor (mirrors : Mirrors n s t) (path : Bytes) :
    t.contextFor? path = (s.contextFor? path).map (renumber n) := by
  have same : s.enrolled.filter ((t.uses · path) ∘ renumber n) = s.enrolled.filter (s.uses · path) :=
    List.filter_congr fun id member => mirrors.uses member path
  rw [contextFor?, contextFor?, mirrors.enrolled, List.find?_map, ← List.head?_filter, same, List.head?_filter]

theorem Shadows.attend (shadows : Shadows env n s t) (attends : ∀ id, s.current = some id → id ∈ s.enrolled) (path : Bytes) :
    Shadows env n (s.setCurrent path) (t.setCurrent path) := by
  have current : (t.setCurrent path).current = (s.setCurrent path).current.map (renumber n) := by
    rw [setCurrent_current, setCurrent_current, shadows.current, shadows.contextFor]
    cases now : s.current with
    | none => cases s.contextFor? path <;> rfl
    | some id =>
      have same := shadows.uses (attends id now) path
      cases found : s.contextFor? path <;> cases used : s.uses id path <;> simp [same, used]
  obtain ⟨a, equal⟩ := setCurrent_eq s path
  obtain ⟨b, equal'⟩ := setCurrent_eq t path
  rw [equal, equal'] at current ⊢
  exact ⟨⟨shadows.enrolled, current, shadows.contexts⟩, shadows.texts, shadows.bindings, shadows.apart, shadows.unused,
    shadows.size, shadows.past⟩

-- Two sessions that go on alike do so for as long as they are asked for the same.
theorem Shadows.follows {moves : List Move} {u v : Session} (shadows : Shadows env n s t)
    (rest : AtRest s ∧ ∀ id, s.current = some id → id ∈ s.enrolled) (rest' : AtRest t) (follows : Follows env s moves u)
    (follows' : Follows (env.renumber n) t (moves.map (Move.renumber n)) v) :
    Shadows env n u v ∧ (AtRest u ∧ ∀ id, u.current = some id → id ∈ u.enrolled) ∧ AtRest v := by
  induction follows generalizing v with
  | start =>
    cases follows'
    exact ⟨shadows, rest, rest'⟩
  | call c _ settles ih =>
    cases follows' with
    | call _ before' settles' =>
      obtain ⟨shadows, rest, rest'⟩ := ih before'
      obtain ⟨outcome, rested⟩ := settles_outcome rest.1 settles
      obtain ⟨outcome', rested'⟩ := settles_outcome rest' settles'
      exact ⟨outcome.shadows outcome' shadows rest.1 rested rested', ⟨rested, outcome.attends rest.2⟩, rested'⟩
  | attend path _ ih =>
    cases follows' with
    | attend _ before' =>
      obtain ⟨shadows, rest, rest'⟩ := ih before'
      exact ⟨shadows.attend rest.2 path, ⟨rest.1.attend path, attend_enrolled rest.2 path⟩, rest'.attend path⟩

end Following

-- A file of no consequence to a session: besides, no context uses it, and no loaded file includes it.
structure StandsAlone (env : Environment) (s : Session) (p : Bytes) (f : File) : Prop extends Lone env p f where
  unused : s.isUsed p = false
  unlinked : ∀ r g, s.fileAt? r = some g → p ∉ includesOf g

theorem StandsAlone.rebegun {p : Bytes} {f : File} (alone : StandsAlone env s p f) (begun : ContextId → List Bytes) :
    StandsAlone { env with begun } s p f :=
  { alone with toLone := alone.toLone.rebegun begun }

section Refused

variable {name base : Bytes} {overlays : List Bytes} {failure : LoadError}

end Refused

end DeviceTree.Session
