import DeviceTree.Proofs.Session.Convergence

namespace DeviceTree.Session

variable {env : Environment} {s t : Session}

-- The file is open in the editor, or an open context uses it.
def Needs (s : Session) (p : Bytes) : Prop := (s.openText? p).isSome = true ∨ s.isUsed p = true

def Clear (s : Session) : Prop := ∀ p, s.Knows p → s.Needs p

theorem AtRest.known (rest : AtRest s) {p : Bytes} (needs : s.Needs p) : s.Knows p := by
  rcases needs with opened | used
  · obtain ⟨text, found⟩ := Option.isSome_iff_exists.mp opened
    exact knows_of_openText found
  · exact rest.knows used

def Call.Seeks (env : Environment) (s : Session) : Call → Bytes → Prop
  | .change path text => Comes (Function.update s.fileAt? path (some (File.ofText env.source env.includeDirs path text)))
      (freshOf env (Function.update s.openText? path (some text)))
      (includesOf (File.ofText env.source env.includeDirs path text))
  | .close path => fun p => s.isUsed path = true ∧
      Comes (Function.update s.fileAt? path none) (freshOf env (Function.update s.openText? path none)) [path] p
  | .openContext _ base overlays => fun p =>
      (∀ r ∈ base :: overlays, s.fileAt? r = none → (freshOf env s.openText? r).isSome = true) ∧
        Comes s.fileAt? (freshOf env s.openText?) (base :: overlays) p
  | .remove _ => fun _ => False
  | .loadBindings _ => fun _ => False

-- How a file comes to be kept that is not needed.
inductive Strays (env : Environment) (s t : Session) : Call → Bytes → Prop where
  -- It was used by way of an include that is gone now.
  | edited {path text p : Bytes} (used : s.isUsed p = true) (needless : ¬ t.Needs p) : Strays env s t (.change path text) p
  | reverted {path p : Bytes} (used : s.isUsed p = true) (needless : ¬ t.Needs p) : Strays env s t (.close path) p
  -- It was loaded for a file that no open context uses.
  | beside {path text p : Bytes} (unused : s.isUsed path = false) (sought : Call.Seeks env s (.change path text) p)
      (new : ¬ s.Knows p) (other : p ≠ path) : Strays env s t (.change path text) p
  -- It cannot be read, so that no merge has entered it.
  | unread {c : Call} {p : Bytes} (sought : c.Seeks env s p) (new : ¬ s.Knows p) (failed : t.fileAt? p = none)
      (unused : t.isUsed p = false) : Strays env s t c p
  -- It is a root of a context that could not be opened.
  | refused {name base : Bytes} {overlays : List Bytes} {p : Bytes}
      (unreadable : ∃ r ∈ base :: overlays, s.fileAt? r = none ∧ freshOf env s.openText? r = none)
      (root : p ∈ base :: overlays) (new : ¬ s.Knows p) : Strays env s t (.openContext name base overlays) p

theorem Revises.isUsed_iff {ids : List ContextId} (revises : Revises s ids t) {p : Bytes} :
    t.isUsed p = true ↔
      ∃ id ∈ s.enrolled, ∃ c, s.context? id = some c ∧ p ∈ (if id ∈ ids then c.renewed t else c).deps := by
  rw [Session.isUsed_iff, revises.enrolled]
  refine exists_congr fun id => and_congr_right fun _ => ?_
  rw [revises.contexts]
  split
  · simp
  · rfl

theorem Revises.isUsed_nothing (revises : Revises s [] t) (p : Bytes) : t.isUsed p = s.isUsed p := by
  rw [Bool.eq_iff_iff, revises.isUsed_iff, Session.isUsed_iff]
  simp

section Leading

variable {c : Context}

-- A file that was used is still led to if the files stay, or else the one that changed is.
theorem Context.Depends.leads (depends : c.Depends s) {path : Bytes}
    (files : ∀ p ∈ c.deps, p ≠ path → ∀ f, s.fileAt? p = some f → t.fileAt? p = some f) {p : Bytes} (member : p ∈ c.deps) :
    Merge.Reaches t.fileAt? c.roots p ∨ Merge.Reaches t.fileAt? c.roots path := by
  obtain ⟨r, root, led⟩ := depends.reached p member
  clear member
  induction led with
  | refl => exact .inl ⟨r, root, .refl⟩
  | @tail q p _ step ih =>
    rcases ih with ⟨r, root, led⟩ | changed
    · by_cases mine : q = path
      · exact .inr (mine ▸ ⟨r, root, led⟩)
      · obtain ⟨f, i, seen, rest⟩ := step
        unfold Context.sees at seen
        split at seen
        · rename_i there
          exact .inl ⟨r, root, led.tail ⟨f, i, files q there mine f seen, rest⟩⟩
        · cases seen
    · exact .inr changed

theorem Context.Depends.stays (depends : c.Depends s) (rest : AtRest t)
    (files : ∀ p ∈ c.deps, ∀ f, s.fileAt? p = some f → t.fileAt? p = some f) {p : Bytes} (member : p ∈ c.deps) :
    p ∈ (c.renewed t).deps := by
  refine (mem_renewed_deps rest.sound.tended.filed rest.parsed c p).mpr ((depends.loaded p member).imp_right fun loaded => ?_)
  obtain ⟨f, found⟩ := Option.isSome_iff_exists.mp loaded
  refine ⟨?_, by rw [files p member f found]; rfl⟩
  have led : Merge.Reaches t.fileAt? c.roots p ∨ Merge.Reaches t.fileAt? c.roots p :=
    depends.leads (fun q there _ => files q there) member
  exact or_self_iff.mp led

theorem Gains.leads {words : Bytes → Option Bytes} {table : Bytes → Option File} {names : Bytes → Prop} {start roots : List Bytes}
    (gains : Gains env words table names (Comes table (freshOf env words) start) t) (rest : AtRest t)
    (first : ∀ p ∈ start, Merge.Reaches t.fileAt? roots p) {p : Bytes} (sought : Comes table (freshOf env words) start p) :
    Merge.Reaches t.fileAt? roots p := by
  induction sought with
  | named member => exact first _ member
  | @included p q f before unread read member ih =>
    obtain ⟨r, root, led⟩ := ih
    have found : t.fileAt? q = some f := by
      rw [gains.files]
      exact gained_some.mpr (.inr ⟨unread, before, read⟩)
    exact ⟨r, root, led.tail ((includes_iff rest.parsed).mpr ⟨f, found, member⟩)⟩

end Leading

-- A context that uses a file is led to it after the file has changed.
theorem Revises.leads {path : Bytes} {words : Bytes → Option Bytes} {f? : Option File} {names done : Bytes → Prop}
    (revises : Revises s (s.dependentsOf path) t) (rest : AtRest s)
    (gains : Gains env words (Function.update s.fileAt? path f?) names done t) {id : ContextId} {c : Context}
    (member : id ∈ s.enrolled) (found : s.context? id = some c) (there : path ∈ c.deps) :
    t.context? id = some (c.renewed t) ∧ Merge.Reaches t.fileAt? c.roots path := by
  have files : ∀ q ∈ c.deps, q ≠ path → ∀ f, s.fileAt? q = some f → t.fileAt? q = some f := by
    intro q _ other f before
    rw [gains.files]
    exact gained_keeps (by rw [Function.update_of_ne other, before])
  refine ⟨?_, or_self_iff.mp ((rest.depends id member c found).leads files there)⟩
  rw [revises.contexts, if_pos (mem_dependentsOf.mpr ⟨member, uses_iff.mpr ⟨c, found, there⟩⟩), found, Option.map_some]

theorem Revises.serves {path : Bytes} {words : Bytes → Option Bytes} {f? : Option File} {names : Bytes → Prop}
    {start : List Bytes} (revises : Revises s (s.dependentsOf path) t) (rest : AtRest s) (rest' : AtRest t)
    (gains : Gains env words (Function.update s.fileAt? path f?) names
      (Comes (Function.update s.fileAt? path f?) (freshOf env words) start) t)
    (used : s.isUsed path = true)
    (first : ∀ roots, Merge.Reaches t.fileAt? roots path → ∀ p ∈ start, Merge.Reaches t.fileAt? roots p)
    {p : Bytes} (sought : Comes (Function.update s.fileAt? path f?) (freshOf env words) start p)
    (loaded : (t.fileAt? p).isSome = true) : t.isUsed p = true := by
  obtain ⟨id, member, c, found, there⟩ := Session.isUsed_iff.mp used
  obtain ⟨shown, led⟩ := revises.leads rest gains member found there
  refine Session.isUsed_iff.mpr ⟨id, revises.enrolled ▸ member, _, shown, ?_⟩
  exact (mem_renewed_deps rest'.sound.tended.filed rest'.parsed c p).mpr
    (.inr ⟨gains.leads rest' (first c.roots led) sought, loaded⟩)

theorem Needs.unused {p : Bytes} (needless : ¬ t.Needs p) : t.isUsed p = false := by
  rw [← Bool.not_eq_true]
  exact fun used => needless (.inr used)

theorem AtRest.needless (rest : AtRest t) {p : Bytes} (failed : t.fileAt? p = none) (unused : t.isUsed p = false) :
    ¬ t.Needs p := by
  rintro (opened | used)
  · have loaded := rest.typed p opened
    rw [failed] at loaded
    cases loaded
  · rw [unused] at used
    cases used

section Straying

variable {path text name base p : Bytes} {overlays paths : List Bytes} {id : ContextId}

theorem Outcome.strays_changed (outcome : Outcome env s t (.change path text)) (rest : AtRest s) (rest' : AtRest t) (clear : Clear s)
    (known : t.Knows p) (needless : ¬ t.Needs p) : Strays env s t (.change path text) p := by
  cases outcome with
  | changed gains revises =>
    have other : p ≠ path := by
      rintro rfl
      exact needless (.inl (by rw [gains.texts, Function.update_self]; rfl))
    by_cases before : s.Knows p
    · rcases clear p before with text | used
      · exact absurd (.inl (by rw [gains.texts, Function.update_of_ne other, text])) needless
      · exact .edited used needless
    · have sought := ((gains.known p).mp known).resolve_left (not_or.mpr ⟨before, other⟩)
      cases used : s.isUsed path with
      | false => exact .beside used sought before other
      | true =>
        refine .unread sought before ?_ (Needs.unused needless)
        by_contra loaded
        refine needless (.inr (revises.serves rest rest' gains used (fun roots led q member => ?_) sought
          (Option.isSome_iff_ne_none.mpr loaded)))
        obtain ⟨r, root, led⟩ := led
        refine ⟨r, root, led.tail ((includes_iff rest'.parsed).mpr ⟨_, ?_, member⟩)⟩
        rw [gains.files]
        exact gained_keeps (Function.update_self ..)

theorem Outcome.strays_closed (outcome : Outcome env s t (.close path)) (rest : AtRest s) (rest' : AtRest t) (clear : Clear s)
    (known : t.Knows p) (needless : ¬ t.Needs p) : Strays env s t (.close path) p := by
  cases outcome with
  | reread used gains revises =>
    by_cases before : s.Knows p
    · rcases clear p before with text | used'
      · by_cases mine : p = path
        · exact .reverted (mine ▸ used) needless
        · exact absurd (.inl (by rw [gains.texts, Function.update_of_ne mine, text])) needless
      · exact .reverted used' needless
    · have sought := ((gains.known p).mp known).resolve_left before
      refine .unread ⟨used, sought⟩ before ?_ (Needs.unused needless)
      by_contra loaded
      refine needless (.inr (revises.serves rest rest' gains used (fun roots led q member => ?_) sought
        (Option.isSome_iff_ne_none.mpr loaded)))
      rw [List.mem_singleton.mp member]
      exact led
  | dropped unused gains revises =>
    obtain ⟨before, other⟩ := ((gains.known p).mp known).resolve_right id
    refine absurd ((clear p before).imp (fun text => ?_) fun used => ?_) needless
    · rw [gains.texts, Function.update_of_ne other, text]
    · rw [revises.isUsed_nothing, used]

theorem Outcome.strays_opened (outcome : Outcome env s t (.openContext name base overlays)) (rest : AtRest s) (rest' : AtRest t)
    (clear : Clear s) (known : t.Knows p) (needless : ¬ t.Needs p) : Strays env s t (.openContext name base overlays) p := by
  cases outcome with
  | opened readable gains enrolled contexts =>
    by_cases before : s.Knows p
    · refine absurd ((clear p before).imp (fun text => by rw [gains.texts, text]) (isUsed_kept fun id member => ?_)) needless
      exact ⟨by rw [enrolled]; exact List.mem_append_left _ member, by rw [contexts, if_neg (Nat.ne_of_lt (rest.bounded member))]⟩
    · have sought := ((gains.known p).mp known).resolve_left before
      refine .unread ⟨readable, sought⟩ before ?_ (Needs.unused needless)
      by_contra loaded
      refine needless (.inr (isUsed_iff.mpr ⟨s.contexts.size, by simp [enrolled], _, by rw [contexts, if_pos rfl], ?_⟩))
      refine (mem_renewed_deps rest'.sound.tended.filed rest'.parsed _ p).mpr (.inr ⟨?_, Option.isSome_iff_ne_none.mpr loaded⟩)
      exact gains.leads rest' (fun q root => ⟨q, root, .refl⟩) sought
  | refused unreadable gains enrolled contexts =>
    obtain ⟨failure, contexts⟩ := contexts
    by_cases before : s.Knows p
    · refine absurd ((clear p before).imp (fun text => by rw [gains.texts, text]) (isUsed_kept fun id member => ?_)) needless
      exact ⟨enrolled ▸ member, by rw [contexts, if_neg (Nat.ne_of_lt (rest.bounded member))]⟩
    · refine .refused unreadable ?_ before
      rcases (gains.known p).mp known with (there | root) | ⟨root, -⟩
      · exact absurd there before
      · exact root
      · exact root

theorem Outcome.strayless_removed (outcome : Outcome env s t (.remove id)) (clear : Clear s) (known : t.Knows p) : t.Needs p := by
  by_contra needless
  cases outcome with
  | @removed _ c member found gains enrolled contexts =>
    obtain ⟨before, kept⟩ := ((gains.known p).mp known).resolve_right fun no => no
    have closed : s.openText? p = none := by
      rw [← gains.texts]
      by_contra text
      exact needless (.inl (Option.isSome_iff_ne_none.mpr text))
    rcases clear p before with text | used
    · rw [closed] at text
      cases text
    · -- Another context uses the file still, for else it would have been dropped.
      obtain ⟨j, listed, o, there, inside⟩ := isUsed_iff.mp used
      have other : j ≠ id := by
        rintro rfl
        rw [found] at there
        cases Option.some.inj there
        exact kept ⟨inside, closed, Needs.unused needless⟩
      refine absurd (.inr (isUsed_iff.mpr ⟨j, ?_, o, ?_, inside⟩)) needless
      · rw [enrolled]
        exact List.mem_filter.mpr ⟨listed, by simpa using other⟩
      · rw [contexts, if_neg (Ne.symm other), there]
  | kept absent same =>
    rw [same] at known needless
    exact absurd (clear p known) needless

theorem Outcome.strayless_bound (outcome : Outcome env s t (.loadBindings paths)) (rest : AtRest s) (rest' : AtRest t)
    (clear : Clear s) (known : t.Knows p) : t.Needs p := by
  by_contra needless
  cases outcome with
  | bound gains revises =>
    have before := ((gains.known p).mp known).resolve_right id
    refine absurd ((clear p before).imp (fun text => by rw [gains.texts, text]) fun used => ?_) needless
    obtain ⟨id, member, c, found, there⟩ := isUsed_iff.mp used
    refine revises.isUsed_iff.mpr ⟨id, member, c, found, ?_⟩
    rw [if_pos member]
    refine (rest.depends id member c found).stays rest' (fun q _ f loaded => ?_) there
    rw [gains.files]
    exact gained_keeps loaded

theorem Outcome.strays {c : Call} (outcome : Outcome env s t c) (rest : AtRest s) (rest' : AtRest t) (clear : Clear s)
    (known : t.Knows p) (needless : ¬ t.Needs p) : Strays env s t c p := by
  cases c with
  | change => exact outcome.strays_changed rest rest' clear known needless
  | close => exact outcome.strays_closed rest rest' clear known needless
  | openContext => exact outcome.strays_opened rest rest' clear known needless
  | remove => exact absurd (outcome.strayless_removed clear known) needless
  | loadBindings => exact absurd (outcome.strayless_bound rest rest' clear known) needless

end Straying

theorem Outcome.known_sought {c : Call} {p : Bytes} (outcome : Outcome env s t c) (sought : c.Seeks env s p) : t.Knows p := by
  cases outcome with
  | changed gains => exact (gains.known p).mpr (.inr sought)
  | reread _ gains => exact (gains.known p).mpr (.inr sought.2)
  | dropped unused =>
    have used := sought.1
    rw [unused] at used
    cases used
  | opened _ gains => exact (gains.known p).mpr (.inr sought.2)
  | refused unreadable => exact absurd sought.1 (not_readable unreadable)
  | removed => cases sought
  | kept => cases sought
  | bound => cases sought

theorem Strays.retained {c : Call} {p : Bytes} (strays : Strays env s t c p) (outcome : Outcome env s t c) (rest : AtRest s)
    (rest' : AtRest t) : t.Knows p ∧ ¬ t.Needs p := by
  cases strays with
  | edited used needless =>
    cases outcome with
    | changed gains => exact ⟨(gains.known p).mpr (.inl (.inl (rest.knows used))), needless⟩
  | reverted used needless =>
    cases outcome with
    | reread _ gains => exact ⟨(gains.known p).mpr (.inl (rest.knows used)), needless⟩
    | dropped _ _ revises => exact absurd (.inr (by rw [revises.isUsed_nothing, used])) needless
  | @beside path text _ unused sought new other =>
    refine ⟨outcome.known_sought sought, ?_⟩
    cases outcome with
    | changed gains revises =>
      have nobody : s.dependentsOf path = [] := by
        rw [dependentsOf, List.filter_eq_nil_iff]
        simpa [isUsed] using unused
      rw [nobody] at revises
      refine fun needs => new (rest.known (needs.imp (fun text => ?_) fun used => ?_))
      · rw [gains.texts, Function.update_of_ne other] at text
        exact text
      · rw [revises.isUsed_nothing] at used
        exact used
  | unread sought _ failed unused => exact ⟨outcome.known_sought sought, rest'.needless failed unused⟩
  | refused unreadable root new =>
    cases outcome with
    | opened readable => exact absurd readable (not_readable unreadable)
    | refused _ gains enrolled contexts =>
      obtain ⟨failure, contexts⟩ := contexts
      refine ⟨(gains.known p).mpr (.inl (.inr root)), fun needs => new (rest.known (needs.imp (fun text => ?_) ?_))⟩
      · rw [← gains.texts, text]
      · refine isUsed_kept fun id member => ?_
        rw [enrolled] at member
        exact ⟨member, by rw [contexts, if_neg (Nat.ne_of_lt (rest.bounded member))]⟩

theorem Outcome.fresh {c : Call} (outcome : Outcome env s t c) {p : Bytes} {f : File} (absent : s.fileAt? p = none)
    (found : t.fileAt? p = some f) : freshOf env t.openText? p = some f := by
  have loaded : ∀ {words : Bytes → Option Bytes} {table : Bytes → Option File} {names done : Bytes → Prop},
      Gains env words table names done t → (∀ f, table p = some f → freshOf env words p = some f) →
        freshOf env t.openText? p = some f := by
    intro words table names done gains given
    rw [gains.look]
    exact gains.stored (given f) found
  have unread : ∀ {path : Bytes} {fresh : Option File} (f : File), Function.update s.fileAt? path none p = some f →
      fresh = some f := by
    intro path fresh f there
    rw [Function.update_apply, absent, ite_self] at there
    cases there
  cases outcome with
  | @changed path text gains =>
    refine loaded gains fun f there => ?_
    rw [Function.update_apply] at there
    split at there
    · rename_i mine
      rw [freshOf, mine, Function.update_self]
      exact there
    · rw [absent] at there
      cases there
  | reread _ gains => exact loaded gains unread
  | dropped _ gains => exact loaded gains unread
  | opened _ gains => exact loaded gains fun f there => by rw [absent] at there; cases there
  | refused _ gains => exact loaded gains fun f there => by rw [absent] at there; cases there
  | removed _ _ gains => exact loaded gains fun f there => by rw [absent, ite_self] at there; cases there
  | kept _ same =>
    rw [same, absent] at found
    cases found
  | bound gains => exact loaded gains fun f there => by rw [absent] at there; cases there

theorem Rested.clear {history : List Turn} (rested : Rested history s) (clear : ∀ x ∈ history, Clear x.after) : Clear s := by
  induction rested with
  | start =>
    rintro p ⟨e, present, -⟩
    cases present
  | turn => exact clear _ List.mem_cons_self
  | @attend history s path _ ih =>
    obtain ⟨current, equal⟩ := setCurrent_eq s path
    rw [equal]
    exact ih clear

-- Call by call, the files that are kept without need are those that stray; so there is never one if and only if none
-- strays, and then a file that is not needed is read when it is next loaded.
theorem retained_iff_strays {history : List Turn} (rested : Rested history s) :
    (∀ x ∈ history, Clear x.before → ∀ p,
      (x.after.Knows p ∧ ¬ x.after.Needs p ↔ Strays x.env x.before x.after x.call p) ∧
        (¬ x.before.Needs p → ∀ f, x.after.fileAt? p = some f → freshOf x.env x.after.openText? p = some f)) ∧
      ((∀ x ∈ history, Clear x.after) ↔ ∀ x ∈ history, ∀ p, ¬ Strays x.env x.before x.after x.call p) := by
  induction rested with
  | start => simp
  | @turn history s t env c before settles ih =>
    obtain ⟨rest, -⟩ := before.rests
    obtain ⟨outcome, rest'⟩ := settles_outcome rest settles
    have exactly : Clear s → ∀ p, t.Knows p ∧ ¬ t.Needs p ↔ Strays env s t c p := fun clear p =>
      ⟨fun ⟨known, needless⟩ => outcome.strays rest rest' clear known needless,
        fun strays => strays.retained outcome rest rest'⟩
    refine ⟨?_, ?_⟩
    · rw [List.forall_mem_cons]
      refine ⟨fun clear p => ⟨exactly clear p, fun needless f found => outcome.fresh ?_ found⟩, ih.1⟩
      by_contra loaded
      obtain ⟨f, there⟩ := Option.ne_none_iff_exists'.mp loaded
      exact needless (clear p (knows_of_fileAt there))
    · rw [List.forall_mem_cons, List.forall_mem_cons, ih.2]
      refine and_congr_left fun strayless => forall_congr' fun p => ?_
      rw [← exactly (before.clear (ih.2.mpr strayless)), not_and, not_not]
  | attend _ _ ih => exact ih

instance : DecidablePred Clear := fun s =>
  decidable_of_iff (∀ e ∈ s.entries, e.live = true → (s.openText? e.path).isSome = true ∨ s.isUsed e.path = true)
    ⟨fun needs _ ⟨e, present, alive, located⟩ => located ▸ needs e present alive,
      fun clear e present alive => clear e.path ⟨e, present, alive, rfl⟩⟩

theorem board_strayless : ∃ x s, Rested [x] s ∧ x.call = openBoard ∧ ∀ p, ¬ Strays x.env x.before x.after x.call p := by
  have settles : Settles nested empty openBoard (settle nested 40 (openBoard.apply empty)) := settles_settle (by decide +kernel)
  have clear : Clear (settle nested 40 (openBoard.apply empty)) := by decide +kernel
  have rested := Rested.turn nested openBoard .start settles
  refine ⟨_, _, rested, rfl, (retained_iff_strays rested).2.mp ?_ _ (List.mem_singleton_self _)⟩
  exact List.forall_mem_singleton.mpr clear

-- The include is taken out of the file that is open, and what it led to stays.
theorem unlinked_board_retained : ¬ ∀ history s, Rested history s → ∀ p, s.Knows p → s.Needs p := by
  intro clear
  have outcome : ((perform nested 40 [.change (utf8 "/a.dts") [], openBoard]).map fun s => decide (Clear s)) = some false := by
    decide +kernel
  obtain ⟨s, done, unclear⟩ := Option.map_eq_some_iff.mp outcome
  obtain ⟨history, rested, -⟩ := (perform_settled done).rested
  exact of_decide_eq_false unclear (clear history s rested)

end DeviceTree.Session
