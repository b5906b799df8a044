import DeviceTree.Proofs.Session.Files

namespace DeviceTree.Session

def Goal.context? : Goal → Option ContextId
  | .openContext id => some id
  | .mergeDependents _ => none

def Task.opens? : Task → Option ContextId
  | .claim _ _ goal => goal.context?
  | .read _ _ _ goal => goal.context?
  | .collect _ _ goal => goal.context?
  | .retry _ goal => goal.context?
  | .enroll id => some id
  | .request _ (.enroll id) => some id
  | _ => none

def Task.loops (id : ContextId) : Task → Bool
  | .merge i => i = id
  | .publish i _ => i = id
  | _ => false

def Task.counted : Task → Bool
  | .reload _ => false
  | _ => true

def isMerging (s : Session) (id : ContextId) : Bool := ((s.context? id).map (·.merging)).getD false
def isDirty (s : Session) (id : ContextId) : Bool := ((s.context? id).map (·.dirty)).getD false

structure Held (s : Session) : Prop where
  proper : ∀ task ∈ s.tasks, task.proper = true
  opening : (s.tasks.filterMap Task.opens?).Nodup
  unopened : ∀ id ∈ s.tasks.filterMap Task.opens?, id ∉ s.enrolled ∧ ∃ c, s.context? id = some c ∧ c.removed = false
  enrolled : ∀ id ∈ s.enrolled, ∃ c, s.context? id = some c ∧ c.removed = false
  loops : ∀ id, s.tasks.countP (·.loops id) = if s.isMerging id then 1 else 0
  balance : s.pending = s.armed.length + s.tasks.countP Task.counted

theorem context_updateContext (s : Session) (id j : ContextId) (f : Context → Context) :
    (s.updateContext id f).context? j = if id = j then (s.context? j).map f else s.context? j := by
  simp only [context?, updateContext, Array.getElem?_modify]

theorem updateContext_congr {s : Session} {id : ContextId} {c : Context} {f g : Context → Context}
    (found : s.context? id = some c) (equal : f c = g c) : s.updateContext id f = s.updateContext id g := by
  have contexts : s.contexts.modify id f = s.contexts.modify id g := by
    refine Array.ext_getElem? fun j => ?_
    rw [Array.getElem?_modify, Array.getElem?_modify]
    split
    · rename_i same
      cases same
      rw [show s.contexts[id]? = some c from found, Option.map_some, Option.map_some, equal]
    · rfl
  rw [updateContext, updateContext, contexts]

def KeepsContexts (s t : Session) : Prop :=
  ∀ id c, s.context? id = some c → ∃ c', t.context? id = some c' ∧ c'.removed = c.removed

theorem keepsContexts_of_eq {s t : Session} (same : t.contexts = s.contexts) : KeepsContexts s t :=
  fun _ c found => ⟨c, by rw [context?, same]; exact found, rfl⟩

theorem keepsContexts_update {s t : Session} (id : ContextId) (f : Context → Context)
    (same : t.contexts = (s.updateContext id f).contexts) (removed : ∀ c, (f c).removed = c.removed) :
    KeepsContexts s t := by
  intro j c found
  have there := context_updateContext s id j f
  by_cases mine : id = j
  · refine ⟨f c, ?_, removed c⟩
    rw [if_pos mine, found] at there
    rw [context?, same]
    exact there
  · refine ⟨c, ?_, rfl⟩
    rw [if_neg mine, found] at there
    rw [context?, same]
    exact there

namespace Held

variable {s t : Session} {task : Task}

theorem step (new : List Task) (held : Held { s with tasks := task :: s.tasks }) (tasks : t.tasks.Perm (new ++ s.tasks))
    (proper : ∀ n ∈ new, n.proper = true) (opens : (new.filterMap Task.opens?).Sublist task.opens?.toList)
    (contexts : KeepsContexts s t) (enrolled : t.enrolled = s.enrolled)
    (loops : ∀ id, new.countP (·.loops id) + (if s.isMerging id then 1 else 0) =
      (if task.loops id then 1 else 0) + if t.isMerging id then 1 else 0)
    (balance : t.pending + s.armed.length + (if task.counted then 1 else 0) =
      s.pending + t.armed.length + new.countP Task.counted) :
    Held t := by
  have fewer : ((new ++ s.tasks).filterMap Task.opens?).Sublist ((task :: s.tasks).filterMap Task.opens?) := by
    rw [List.filterMap_append, List.filterMap_cons]
    refine (opens.append (List.Sublist.refl _)).trans ?_
    cases task.opens? <;> exact List.Sublist.refl _
  have known : ∀ id, (∃ c, s.context? id = some c ∧ c.removed = false) → ∃ c, t.context? id = some c ∧ c.removed = false := by
    rintro id ⟨c, found, stays⟩
    obtain ⟨c', found', same⟩ := contexts id c found
    exact ⟨c', found', same.trans stays⟩
  refine ⟨?_, ?_, ?_, ?_, ?_, ?_⟩
  · intro n member
    rcases List.mem_append.mp (tasks.mem_iff.mp member) with fresh | old
    · exact proper n fresh
    · exact held.proper n (.tail _ old)
  · exact (tasks.filterMap _).nodup_iff.mpr (fewer.nodup held.opening)
  · intro id opening
    obtain ⟨absent, there⟩ := held.unopened id (fewer.subset ((tasks.filterMap _).mem_iff.mp opening))
    exact ⟨enrolled ▸ absent, known id there⟩
  · intro id member
    exact known id (held.enrolled id (enrolled ▸ member))
  · intro id
    have before : (task :: s.tasks).countP (·.loops id) = if s.isMerging id then 1 else 0 := held.loops id
    have change := loops id
    rw [tasks.countP_eq, List.countP_append]
    rw [List.countP_cons] at before
    omega
  · have before : s.pending = s.armed.length + (task :: s.tasks).countP Task.counted := held.balance
    rw [tasks.countP_eq, List.countP_append]
    rw [List.countP_cons] at before
    split at balance <;> simp_all <;> omega

theorem perm (held : Held s) {tasks : List Task} (order : s.tasks.Perm tasks) : Held { s with tasks } where
  proper task member := held.proper task (order.mem_iff.mpr member)
  opening := (order.filterMap _).nodup held.opening
  unopened id member := held.unopened id ((order.filterMap _).mem_iff.mpr member)
  enrolled := held.enrolled
  loops id := by
    rw [← order.countP_eq]
    exact held.loops id
  balance := by
    rw [← order.countP_eq]
    exact held.balance

theorem loop_merging (held : Held { s with tasks := task :: s.tasks }) (id : ContextId) (loop : task.loops id = true) :
    ∃ c, s.context? id = some c ∧ c.merging = true := by
  have count : (task :: s.tasks).countP (·.loops id) = if s.isMerging id then 1 else 0 := held.loops id
  rw [List.countP_cons, if_pos loop] at count
  cases found : s.context? id with
  | none => simp [isMerging, found] at count
  | some c =>
    cases merging : c.merging with
    | true => exact ⟨c, rfl, merging⟩
    | false => simp [isMerging, found, merging] at count

end Held

theorem advance_filing (env : Environment) (s : Session) {task : Task} (filing : task.isFiling = true) :
    (∀ next ∈ (advance env s task).1, next.opens? = task.opens? ∧ ∀ id, next.loops id = false) ∧
      (advance env s task).2.pending + (if task.counted then 1 else 0) =
        s.pending + (advance env s task).1.toList.countP Task.counted := by
  have goes : ∀ (n : Task) (goal : Option ContextId), n.opens? = goal → (∀ id, n.loops id = false) →
      ∀ next ∈ some n, next.opens? = goal ∧ ∀ id, next.loops id = false := by
    rintro n goal opens loops next ⟨⟩
    exact ⟨opens, loops⟩
  have ended : s.donePending.pending + 1 = s.pending + (0 : Nat) := by simp [donePending]
  cases task with
  | fired t =>
    simp only [advance, onFired]
    split
    · split
      · exact ⟨goes _ _ rfl fun _ => rfl, rfl⟩
      · exact ⟨by simp, ended⟩
    · exact ⟨by simp, ended⟩
  | store n g f =>
    simp only [advance, onStore]
    split
    · split
      · exact ⟨goes _ _ rfl fun _ => rfl, rfl⟩
      · exact ⟨by simp, ended⟩
    · exact ⟨by simp, ended⟩
  | claim wave isRoots goal =>
    simp only [advance]
    split
    · exact ⟨goes _ _ rfl fun _ => rfl, rfl⟩
    · exact ⟨goes _ _ rfl fun _ => rfl, congrArg (· + 1) (claimWave_pending s wave)⟩
  | collect results failure goal =>
    simp only [advance]
    split <;> exact ⟨goes _ _ rfl fun _ => rfl, congrArg (· + 1) (collectResults_pending s results)⟩
  | parse | read => exact ⟨goes _ _ rfl fun _ => rfl, rfl⟩
  | reload path =>
    refine ⟨goes _ _ rfl fun _ => rfl, ?_⟩
    simp only [advance, onReload]
    split <;> exact Int.add_zero _
  | _ => cases filing

theorem isMerging_updateContext (s : Session) (id j : ContextId) (f : Context → Context) :
    (s.updateContext id f).isMerging j = if id = j then ((s.context? j).map fun c => (f c).merging).getD false else s.isMerging j := by
  simp only [isMerging, context_updateContext]
  split
  · simp [Function.comp_def]
  · rfl

theorem isMerging_kept (s : Session) (id j : ContextId) {f : Context → Context} (keeps : ∀ c, (f c).merging = c.merging) :
    (s.updateContext id f).isMerging j = s.isMerging j := by
  rw [isMerging_updateContext]
  simp only [keeps, isMerging, ite_self]

theorem isDirty_updateContext (s : Session) (id j : ContextId) (f : Context → Context) :
    (s.updateContext id f).isDirty j = if id = j then ((s.context? j).map fun c => (f c).dirty).getD false else s.isDirty j := by
  simp only [isDirty, context_updateContext]
  split
  · simp [Function.comp_def]
  · rfl

theorem isDirty_kept (s : Session) (id j : ContextId) {f : Context → Context} (keeps : ∀ c, (f c).dirty = c.dirty) :
    (s.updateContext id f).isDirty j = s.isDirty j := by
  rw [isDirty_updateContext]
  simp only [keeps, isDirty, ite_self]

theorem isDirty_congr {s t : Session} (same : t.contexts = s.contexts) (id : ContextId) : t.isDirty id = s.isDirty id := by
  simp only [isDirty, context?, same]

theorem isMerging_congr {s t : Session} (same : t.contexts = s.contexts) (id : ContextId) :
    t.isMerging id = s.isMerging id := by
  simp only [isMerging, context?, same]

def Entry.isBusy (e : Entry) : Bool := e.timer.isSome || e.state = .parsing

theorem busy_of_deps {s : Session} {c : Context} (busy : s.depsBusy c = true) :
    ∃ e ∈ s.entries, e.live = true ∧ e.isBusy = true := by
  have entry : ∀ path, s.isBusy path = true → ∃ e ∈ s.entries, e.live = true ∧ e.isBusy = true := by
    intro path waiting
    unfold isBusy at waiting
    split at waiting
    · rename_i e found
      obtain ⟨present, alive, -⟩ := entry_mem found
      exact ⟨e, present, alive, waiting⟩
    · cases waiting
  obtain ⟨path, -, either⟩ := List.any_eq_true.mp busy
  rcases Bool.or_eq_true_iff.mp either with direct | included
  · exact entry path direct
  · split at included
    · obtain ⟨i, -, waiting⟩ := List.any_eq_true.mp included
      cases target : i.target with
      | none => simp [target] at waiting
      | some path => exact entry path (by simpa [target] using waiting)
    · cases included

def Context.asked (c : Context) : Context := { c with dirty := true }
def Context.started (c : Context) : Context := { c with dirty := true, merging := true }
def Context.begun (c : Context) : Context := { c with dirty := false }
def Context.stopped (c : Context) : Context := { c with merging := false }

def Context.published (c : Context) (tree : Tree) (found : List Diagnostic) : Context :=
  { c with
    generation := c.generation + 1
    deps := c.roots ++ tree.files
    snapshot := some ⟨tree, tree.diagnostics ++ found, c.generation + 1⟩ }

theorem requestMerge_cases (s : Session) (id : ContextId) :
    (s.requestMerge id = s ∧ ∀ c, s.context? id = some c → c.removed = true) ∨
    (∃ c, s.context? id = some c ∧ c.removed = false ∧ c.merging = true ∧
      s.requestMerge id = s.updateContext id Context.asked) ∨
    ∃ c, s.context? id = some c ∧ c.removed = false ∧ c.merging = false ∧
      s.requestMerge id = { s.updateContext id Context.started with
        pending := s.pending + 1, tasks := s.tasks ++ [.merge id] } := by
  unfold requestMerge
  cases found : s.context? id with
  | none => exact .inl ⟨rfl, nofun⟩
  | some c =>
    dsimp only
    split
    · rename_i removed
      refine .inl ⟨rfl, fun c' same => ?_⟩
      cases Option.some.inj same
      exact removed
    · rename_i stays
      split
      · rename_i merging
        exact .inr (.inl ⟨c, rfl, by simpa using stays, merging, rfl⟩)
      · rename_i idle
        exact .inr (.inr ⟨c, rfl, by simpa using stays, by simpa using idle, rfl⟩)

theorem onMerge_cases {s : Session} {id : ContextId} {c : Context} (found : s.context? id = some c) :
    ((c.dirty = false ∨ c.removed = true ∨ s.depsBusy c = true) ∧
      s.onMerge id = (none, { s.updateContext id Context.stopped with pending := s.pending - 1 })) ∨
    (c.dirty = true ∧ c.removed = false ∧ s.depsBusy c = false ∧
      s.onMerge id = (some (.publish id (Tree.merge c.name c.roots s.parsedFiles s.bindings)),
        s.updateContext id Context.begun)) := by
  unfold onMerge
  rw [found]
  dsimp only
  split
  · rename_i ends
    refine .inl ⟨?_, rfl⟩
    simpa [or_assoc] using ends
  · rename_i goes
    simp only [Bool.or_eq_true, Bool.not_eq_true', not_or, Bool.not_eq_true, Bool.not_eq_false] at goes
    exact .inr ⟨goes.1.1, goes.1.2, goes.2, rfl⟩

-- A check that fails leaves the task where it is.
theorem onPublish_cases {s : Session} {id : ContextId} {c : Context} (found : s.context? id = some c) (tree : Tree) :
    (∃ p, tree.check = .error p ∧ s.onPublish id tree = (some (.publish id tree), { s with crash := some p })) ∨
    ∃ told, tree.check = .ok told ∧
      ((c.removed = true ∧
        s.onPublish id tree = (none, { s.updateContext id Context.stopped with pending := s.pending - 1 })) ∨
      (c.removed = false ∧
        s.onPublish id tree = (some (.merge id), { s.updateContext id (·.published tree told) with
          events := s.events ++ [.changed id (c.generation + 1)] }))) := by
  unfold onPublish
  cases back : tree.check with
  | error p => exact .inl ⟨p, rfl, rfl⟩
  | ok told =>
    refine .inr ⟨told, rfl, ?_⟩
    rw [found]
    dsimp only
    split
    · rename_i removed
      exact .inl ⟨removed, rfl⟩
    · rename_i stays
      refine .inr ⟨by simpa using stays, ?_⟩
      have same := updateContext_congr (g := (·.published tree told)) found (f := fun o =>
        { o with
          generation := c.generation + 1
          deps := o.roots ++ tree.files
          snapshot := some ⟨tree, tree.diagnostics ++ told, c.generation + 1⟩ }) rfl
      rw [← same]
      rfl

theorem Held.goes (next : Option Task) {s t : Session} {task : Task} (held : Held { s with tasks := task :: s.tasks })
    (tasks : t.tasks = next.toList ++ s.tasks) (proper : ∀ n ∈ next, n.proper = true)
    (opens : ∀ n ∈ next, n.opens? = task.opens? ∨ n.opens? = none) (contexts : KeepsContexts s t)
    (enrolled : t.enrolled = s.enrolled)
    (loops : ∀ id, next.toList.countP (·.loops id) + (if s.isMerging id then 1 else 0) =
      (if task.loops id then 1 else 0) + if t.isMerging id then 1 else 0)
    (armed : t.armed = s.armed)
    (balance : t.pending + (if task.counted then 1 else 0) = s.pending + next.toList.countP Task.counted) :
    Held t := by
  refine held.step next.toList (tasks ▸ List.Perm.refl _) (fun n member => proper n (Option.mem_toList.mp member))
    ?_ contexts enrolled loops (by rw [armed]; omega)
  cases next with
  | none => exact List.nil_sublist _
  | some n =>
    rw [Option.toList_some, List.filterMap_cons, List.filterMap_nil]
    rcases opens n rfl with same | none
    · rw [same]
      cases task.opens? <;> exact List.Sublist.refl _
    · rw [none]
      exact List.nil_sublist _

theorem Held.passes (next : Task) {s t : Session} {task : Task} (held : Held { s with tasks := task :: s.tasks })
    (tasks : t.tasks = next :: s.tasks) (proper : next.proper = true)
    (opens : next.opens? = task.opens? ∨ next.opens? = none) (contexts : KeepsContexts s t)
    (merging : ∀ j, t.isMerging j = s.isMerging j) (enrolled : t.enrolled = s.enrolled) (armed : t.armed = s.armed)
    (pending : t.pending = s.pending) (quiet : ∀ j, task.loops j = false ∧ next.loops j = false)
    (counted : task.counted = true ∧ next.counted = true) : Held t := by
  refine held.goes (some next) tasks ?_ ?_ contexts enrolled ?_ armed ?_
  · rintro n ⟨⟩
    exact proper
  · rintro n ⟨⟩
    exact opens
  · intro j
    simp [merging, quiet]
  · simp [pending, counted]

theorem requestMerge_held {s : Session} {id : ContextId} {rest : List ContextId} {next : Task}
    (held : Held { s with tasks := .request (id :: rest) next :: s.tasks }) :
    Held { s.requestMerge id with tasks := .request rest next :: (s.requestMerge id).tasks } := by
  have proper : next.follows = true := held.proper _ List.mem_cons_self
  have opens : (Task.request rest next).opens? = (Task.request (id :: rest) next).opens? := by
    cases next <;> rfl
  -- Where no loop is started, only the mark of the request may have changed.
  have idle : ∀ t : Session, t.tasks = s.tasks → t.armed = s.armed → t.pending = s.pending → t.enrolled = s.enrolled →
      KeepsContexts s t → (∀ j, t.isMerging j = s.isMerging j) →
      Held { t with tasks := .request rest next :: t.tasks } := by
    intro t tasks armed pending enrolled contexts merging
    exact held.passes (.request rest next) (congrArg _ tasks) proper (.inl opens) contexts merging enrolled armed pending
      (fun _ => ⟨rfl, rfl⟩) ⟨rfl, rfl⟩
  rcases requestMerge_cases s id with ⟨same, -⟩ | ⟨c, found, stays, merging, same⟩ | ⟨c, found, stays, free, same⟩
  · rw [same]
    exact idle s rfl rfl rfl rfl (keepsContexts_of_eq rfl) fun _ => rfl
  · rw [same]
    exact idle _ rfl rfl rfl rfl (keepsContexts_update id Context.asked rfl fun _ => rfl) fun j =>
      isMerging_kept s id j fun _ => rfl
  · rw [same]
    refine held.step [.request rest next, .merge id] ?_ ?_ ?_ (keepsContexts_update id Context.started rfl fun _ => rfl) rfl ?_ ?_
    · exact (List.perm_append_comm.cons _).trans (List.Perm.refl _)
    · intro n member
      rcases List.mem_cons.mp member with rfl | later
      · exact proper
      · cases List.mem_singleton.mp later
        rfl
    · rw [List.filterMap_cons, opens]
      cases (Task.request (id :: rest) next).opens? <;> exact List.Sublist.refl _
    · intro j
      have merging : ({ s.updateContext id Context.started with
          pending := s.pending + 1, tasks := .request rest next :: (s.tasks ++ [.merge id]) } : Session).isMerging j =
          (s.updateContext id Context.started).isMerging j := rfl
      have before := isMerging_updateContext s id j Context.started
      have idle : s.isMerging id = false := by simp [isMerging, found, free]
      simp only [merging, before, List.countP_cons, List.countP_nil, Task.loops]
      by_cases mine : id = j
      · cases mine
        simp [found, idle, Context.started]
      · simp [mine]
    · have sum : s.pending + 1 + s.armed.length + 1 = s.pending + s.armed.length + (2 : Nat) := by omega
      exact sum

theorem loop_held {s t : Session} {id : ContextId} {c : Context} {task : Task} {f : Context → Context} (next : Option Task)
    (held : Held { s with tasks := task :: s.tasks }) (loop : ∀ j, task.loops j = decide (id = j))
    (counted : task.counted = true) (found : s.context? id = some c) (tasks : t.tasks = next.toList ++ s.tasks)
    (enrolled : t.enrolled = s.enrolled) (armed : t.armed = s.armed)
    (contexts : t.contexts = (s.updateContext id f).contexts) (removed : ∀ c, (f c).removed = c.removed)
    (goes : (∃ n, next = some n ∧ n.proper = true ∧ n.opens? = none ∧ (∀ j, n.loops j = decide (id = j)) ∧
        n.counted = true ∧ (f c).merging = c.merging ∧ t.pending = s.pending) ∨
      (next = none ∧ (f c).merging = false ∧ t.pending = s.pending - 1)) : Held t := by
  have merging : c.merging = true := by
    obtain ⟨c', found', set⟩ := held.loop_merging id (by simp [loop])
    rw [found] at found'
    cases found'
    exact set
  have after : ∀ j, t.isMerging j = if id = j then (f c).merging else s.isMerging j := by
    intro j
    have same : t.isMerging j = (s.updateContext id f).isMerging j := by
      simp only [isMerging, context?, contexts]
    rw [same, isMerging_updateContext]
    by_cases mine : id = j
    · cases mine
      simp [found]
    · simp [mine]
  have before : s.isMerging id = true := by simp [isMerging, found, merging]
  rcases goes with ⟨n, rfl, proper, opens, loops, holds, keeps, pending⟩ | ⟨rfl, stopped, pending⟩
  · refine held.goes (some n) tasks (by simpa using proper) (by simp [opens]) (keepsContexts_update id f contexts removed)
      enrolled ?_ armed ?_
    · intro j
      rw [after, loop]
      by_cases mine : id = j
      · cases mine
        simp [loops, before, keeps, merging]
      · simp [loops, mine]
    · simp [pending, counted, holds]
  · refine held.goes none tasks nofun nofun (keepsContexts_update id f contexts removed) enrolled ?_ armed ?_
    · intro j
      rw [after, loop]
      by_cases mine : id = j
      · cases mine
        simp [before, stopped]
      · simp [mine]
    · simp [pending, counted]

theorem enroll_held {s : Session} {id : ContextId} (held : Held { s with tasks := .enroll id :: s.tasks }) :
    Held { s with enrolled := s.enrolled ++ [id], tasks := .request [id] .release :: s.tasks } := by
  have opening : id ∉ s.tasks.filterMap Task.opens? := (List.nodup_cons.mp held.opening).1
  refine ⟨?_, ?_, ?_, ?_, held.loops, held.balance⟩
  · intro task member
    rcases List.mem_cons.mp member with rfl | old
    · rfl
    · exact held.proper task (.tail _ old)
  · exact (List.nodup_cons.mp held.opening).2
  · intro j later
    obtain ⟨absent, known⟩ := held.unopened j (.tail _ later)
    refine ⟨fun member => ?_, known⟩
    rcases List.mem_append.mp member with old | new
    · exact absent old
    · cases List.mem_singleton.mp new
      exact opening later
  · intro j member
    rcases List.mem_append.mp member with old | new
    · exact held.enrolled j old
    · cases List.mem_singleton.mp new
      exact (held.unopened id List.mem_cons_self).2

theorem resume_held (env : Environment) {s : Session} {task : Task} (held : Held { s with tasks := task :: s.tasks }) :
    Held (resume env s task) := by
  have proper : task.proper = true := held.proper task List.mem_cons_self
  have goesOn : ∀ n ∈ (advance env s task).1, n.proper = true := fun n step => advance_proper env s proper step
  by_cases filing : task.isFiling = true
  · obtain ⟨entries, last, pending, frame⟩ := advance_files env s filing
    obtain ⟨next, balance⟩ := advance_filing env s filing
    refine held.goes (advance env s task).1 ?_ goesOn (fun n step => .inl (next n step).1) (keepsContexts_of_eq ?_) ?_ ?_ ?_ balance
    · simp only [resume, frame]
    · simp only [resume, frame]
    · simp only [resume, frame]
    · intro id
      have same : (resume env s task).isMerging id = s.isMerging id := by
        simp only [resume, frame, isMerging, context?]
      have quiet : task.loops id = false := by
        cases task <;> first | rfl | cases filing
      rw [same, quiet]
      cases step : (advance env s task).1 with
      | none => rfl
      | some n => simp [(next n step).2 id]
    · simp only [resume, frame]
  · cases task with
    | retry failure goal =>
      have opens : ∀ put, (Task.request put (afterLoad failure goal)).opens? = goal.context? ∨
          (Task.request put (afterLoad failure goal)).opens? = none := by
        intro put
        cases goal <;> cases failure <;> first | exact .inl rfl | exact .inr rfl
      cases goal with
      | openContext id =>
        exact held.passes _ rfl (afterLoad_follows failure (.openContext id)) (opens _)
          (keepsContexts_update id (fun c => { c with failure }) rfl fun _ => rfl)
          (fun j => isMerging_kept s id j fun _ => rfl) rfl rfl rfl (fun _ => ⟨rfl, rfl⟩) ⟨rfl, rfl⟩
      | mergeDependents path =>
        exact held.passes _ rfl (afterLoad_follows failure (.mergeDependents path)) (opens _) (keepsContexts_of_eq rfl) (fun _ => rfl) rfl rfl rfl
          (fun _ => ⟨rfl, rfl⟩) ⟨rfl, rfl⟩
    | enroll id => exact enroll_held held
    | dependents path =>
      exact held.passes (.request _ .release) rfl rfl (.inl rfl) (keepsContexts_of_eq rfl) (fun _ => rfl) rfl rfl rfl
        (fun _ => ⟨rfl, rfl⟩) ⟨rfl, rfl⟩
    | bindings paths =>
      exact held.passes (.request _ .release) rfl rfl (.inl rfl) (keepsContexts_of_eq rfl) (fun _ => rfl) rfl rfl rfl
        (fun _ => ⟨rfl, rfl⟩) ⟨rfl, rfl⟩
    | request contexts next =>
      cases contexts with
      | nil =>
        have follows : next.opens? = (Task.request [] next).opens? ∧ (∀ id, next.loops id = false) ∧ next.counted = true := by
          cases next <;> first | exact ⟨rfl, fun _ => rfl, rfl⟩ | cases proper
        exact held.passes next rfl (proper_of_follows proper) (.inl follows.1) (keepsContexts_of_eq rfl) (fun _ => rfl)
          rfl rfl rfl (fun j => ⟨rfl, follows.2.1 j⟩) ⟨rfl, follows.2.2⟩
      | cons id rest => exact requestMerge_held held
    | release =>
      refine held.goes none rfl (by simp) (by simp) (keepsContexts_of_eq rfl) rfl (fun j => rfl) rfl ?_
      have ended : s.pending - 1 + 1 = s.pending + (0 : Nat) := by omega
      exact ended
    | merge id =>
      obtain ⟨c, found, -⟩ := held.loop_merging id (by simp [Task.loops])
      rcases onMerge_cases found with ⟨-, equal⟩ | ⟨-, -, -, equal⟩ <;> simp only [resume, advance, equal]
      · exact loop_held none held (fun _ => rfl) rfl found rfl rfl rfl (f := Context.stopped) rfl (fun _ => rfl)
          (.inr ⟨rfl, rfl, rfl⟩)
      · exact loop_held (some _) held (fun _ => rfl) rfl found rfl rfl rfl (f := Context.begun) rfl (fun _ => rfl)
          (.inl ⟨_, rfl, rfl, rfl, fun _ => rfl, rfl, rfl, rfl⟩)
    | publish id tree =>
      obtain ⟨c, found, -⟩ := held.loop_merging id (by simp [Task.loops])
      rcases onPublish_cases found tree with ⟨p, -, equal⟩ | ⟨told, -, ⟨-, equal⟩ | ⟨-, equal⟩⟩ <;>
        simp only [resume, advance, equal]
      · exact ⟨held.proper, held.opening, held.unopened, held.enrolled, held.loops, held.balance⟩
      · exact loop_held none held (fun _ => rfl) rfl found rfl rfl rfl (f := Context.stopped) rfl (fun _ => rfl)
          (.inr ⟨rfl, rfl, rfl⟩)
      · exact loop_held (some _) held (fun _ => rfl) rfl found rfl rfl rfl (f := (·.published tree told)) rfl (fun _ => rfl)
          (.inl ⟨_, rfl, rfl, rfl, fun _ => rfl, rfl, rfl, rfl⟩)
    | _ => exact absurd rfl filing

theorem Held.adds {s t : Session} (new : List Task) (held : Held s) (tasks : t.tasks = s.tasks ++ new)
    (proper : ∀ n ∈ new, n.proper = true ∧ n.opens? = none ∧ ∀ id, n.loops id = false)
    (contexts : t.contexts = s.contexts) (enrolled : t.enrolled = s.enrolled)
    (balance : t.pending + s.armed.length = s.pending + t.armed.length + new.countP Task.counted) : Held t := by
  have opens : t.tasks.filterMap Task.opens? = s.tasks.filterMap Task.opens? := by
    rw [tasks, List.filterMap_append, List.filterMap_eq_nil_iff.mpr fun n member => (proper n member).2.1]
    exact List.append_nil _
  refine ⟨?_, opens ▸ held.opening, ?_, ?_, ?_, ?_⟩
  · intro task member
    rw [tasks] at member
    rcases List.mem_append.mp member with old | fresh
    · exact held.proper task old
    · exact (proper task fresh).1
  · rw [opens, enrolled]
    simp only [context?, contexts]
    exact held.unopened
  · rw [enrolled]
    simp only [context?, contexts]
    exact held.enrolled
  · intro id
    have none : new.countP (·.loops id) = 0 := by
      refine List.countP_eq_zero.mpr fun n member => ?_
      simp [(proper n member).2.2 id]
    rw [tasks, List.countP_append, none, Nat.add_zero]
    simp only [isMerging, context?, contexts]
    exact held.loops id
  · have before := held.balance
    rw [tasks, List.countP_append]
    omega

theorem filter_timer_length {armed : List Timer} (nodup : (armed.map (·.id)).Nodup) (timer : Option Nat) :
    (armed.filter fun t => timer != some t.id).length + (if armed.any (fun t => timer = some t.id) then 1 else 0) =
      armed.length := by
  induction armed with
  | nil => rfl
  | cons t rest ih =>
    obtain ⟨alone, later⟩ := List.nodup_cons.mp nodup
    by_cases mine : timer = some t.id
    · subst mine
      have others : rest.filter (fun u => some t.id != some u.id) = rest := by
        refine List.filter_eq_self.mpr fun u member => ?_
        simp only [bne_iff_ne, ne_eq, Option.some.injEq]
        exact fun equal => alone (List.mem_map.mpr ⟨u, member, equal.symm⟩)
      simp [others]
    · have rest := ih later
      simp only [List.filter_cons, List.any_cons, mine, decide_false, Bool.false_or, bne_iff_ne, ne_eq, not_false_eq_true,
        if_true, List.length_cons]
      omega

theorem openContext_marks (s : Session) (name base : Bytes) (overlays : List Bytes) (id : ContextId) :
    (s.openContext name base overlays).2.isDirty id = s.isDirty id ∧
      (s.openContext name base overlays).2.isMerging id = s.isMerging id := by
  simp only [isDirty, isMerging, openContext, addPending, context?, Array.getElem?_push]
  split
  · rename_i equal
    simp [equal]
  · exact ⟨rfl, rfl⟩

theorem openContext_held {s : Session} (held : Held s) (name base : Bytes) (overlays : List Bytes) :
    Held (s.openContext name base overlays).2 := by
  have size : ∀ id c, s.context? id = some c → id < s.contexts.size := by
    intro id c found
    exact (Array.getElem?_eq_some_iff.mp found).1
  have known : ∀ id, (∃ c, s.context? id = some c ∧ c.removed = false) →
      ∃ c, (s.openContext name base overlays).2.context? id = some c ∧ c.removed = false := by
    rintro id ⟨c, found, stays⟩
    refine ⟨c, ?_, stays⟩
    have bound := size id c found
    simp only [openContext, addPending, context?] at found ⊢
    rw [Array.getElem?_push, if_neg (Nat.ne_of_lt bound), found]
  have fresh : s.contexts.size ∉ s.enrolled := by
    intro member
    obtain ⟨c, found, -⟩ := held.enrolled _ member
    exact Nat.lt_irrefl _ (size _ c found)
  have opens : (s.openContext name base overlays).2.tasks.filterMap Task.opens? =
      s.tasks.filterMap Task.opens? ++ [s.contexts.size] := by
    simp [openContext, addPending, List.filterMap_append, Task.opens?, Goal.context?]
  refine ⟨?_, ?_, ?_, fun id member => known id (held.enrolled id member), ?_, ?_⟩
  · intro task member
    rcases List.mem_append.mp member with old | new
    · exact held.proper task old
    · cases List.mem_singleton.mp new
      rfl
  · rw [opens, List.nodup_append]
    refine ⟨held.opening, List.nodup_singleton _, ?_⟩
    intro id opening j new equal
    obtain ⟨-, c, found, -⟩ := held.unopened id opening
    have bound := size id c found
    rw [List.mem_singleton.mp new] at equal
    exact Nat.lt_irrefl _ (equal ▸ bound)
  · intro id opening
    rw [opens] at opening
    rcases List.mem_append.mp opening with old | new
    · exact ⟨(held.unopened id old).1, known id (held.unopened id old).2⟩
    · cases List.mem_singleton.mp new
      exact ⟨fresh, _, Array.getElem?_push_size, rfl⟩
  · intro id
    rw [(openContext_marks s name base overlays id).2]
    simp only [openContext, addPending, List.countP_append]
    exact held.loops id
  · have before := held.balance
    have one : (s.tasks ++ [Task.claim (base :: overlays) true (.openContext s.contexts.size)]).countP Task.counted =
        s.tasks.countP Task.counted + 1 := by
      simp [List.countP_append, Task.counted]
    simp only [openContext, addPending, Context.roots, one]
    omega

theorem strike_held {s : Session} (held : Held s) {id : ContextId} (member : id ∈ s.enrolled) : Held (s.strike id) := by
  have others : ∀ j, id ≠ j → (s.strike id).context? j = s.context? j := by
    intro j differ
    exact (context_updateContext s id j _).trans (if_neg differ)
  refine ⟨held.proper, held.opening, ?_, ?_, ?_, held.balance⟩
  · intro j opening
    obtain ⟨absent, known⟩ := held.unopened j opening
    have differ : id ≠ j := fun equal => absent (equal ▸ member)
    rw [others j differ]
    exact ⟨fun there => absent (List.mem_filter.mp there).1, known⟩
  · intro j there
    obtain ⟨listed, differ⟩ := List.mem_filter.mp there
    rw [others j fun equal => by simp [equal] at differ]
    exact held.enrolled j listed
  · intro j
    have same : (s.strike id).isMerging j = s.isMerging j := isMerging_kept s id j fun _ => rfl
    rw [same]
    exact held.loops j

theorem change_held {s : Session} (tended : Tended s s.duties) (held : Held s) (path text : Bytes) :
    Held (s.change path text) := by
  obtain ⟨ensured, -⟩ := ensureEntry_tended tended path
  rw [← ensureEntry_duties s path] at ensured
  have still : Held (s.ensureEntry path).2 := by
    obtain ⟨entries, last, pending, frame⟩ := ensureEntry_files s path
    have counted := ensureEntry_pending s path
    rw [frame] at counted ⊢
    refine held.adds [] (List.append_nil _).symm nofun rfl rfl ?_
    rw [show pending = s.pending from counted]
    exact (Int.add_zero _).symm
  unfold change
  generalize s.ensureEntry path = made at ensured still ⊢
  obtain ⟨e, s⟩ := made
  dsimp only at ensured still ⊢
  split
  · rename_i t armed
    obtain ⟨id, -, found⟩ := Option.bind_eq_some_iff.mp armed
    have order := rearm_perm ensured (List.mem_of_find?_eq_some found)
    refine still.adds [] (List.append_nil _).symm nofun rfl rfl ?_
    have same : s.pending + s.armed.length = s.pending + (s.armed.filter (· != t) ++ [t]).length + (0 : Nat) := by
      rw [order.length_eq]
      omega
    exact same
  · refine still.adds [] (List.append_nil _).symm nofun rfl rfl ?_
    have sum : s.pending + 1 + s.armed.length =
        s.pending + (s.armed ++ [Timer.mk path (s.lastTimer + 1)]).length + (0 : Nat) := by
      rw [List.length_append, List.length_singleton]
      omega
    exact sum

theorem close_held {s : Session} (tended : Tended s s.duties) (held : Held s) (path : Bytes) : Held (s.close path) := by
  cases found : s.entry? path with
  | none =>
    simp only [close, found]
    exact held
  | some e =>
    obtain ⟨last, -, equal⟩ := close_eq found
    have count := filter_timer_length (armed_nodup tended) e.timer
    rw [equal]
    refine held.adds (if s.isUsed path then [.reload path] else []) rfl ?_ rfl rfl ?_
    · intro n member
      split at member
      · cases List.mem_singleton.mp member
        exact ⟨rfl, rfl, fun _ => rfl⟩
      · cases member
    · have none : (if s.isUsed path then [Task.reload path] else []).countP Task.counted = 0 := by
        split <;> rfl
      rw [none]
      dsimp only
      by_cases running : (s.armed.any fun t => decide (e.timer = some t.id)) = true
      · rw [if_pos running] at count ⊢
        omega
      · rw [if_neg running] at count ⊢
        omega

theorem apply_held {s : Session} (tended : Tended s s.duties) (held : Held s) (c : Call) : Held (c.apply s) := by
  cases c with
  | change path text => exact change_held tended held path text
  | close path => exact close_held tended held path
  | openContext name base overlays => exact openContext_held held name base overlays
  | remove id =>
    rcases remove_cases s id with same | ⟨c, -, enrolled, equal⟩
    · simpa only [Call.apply, same] using held
    · have struck : Tended (s.strike id) (s.strike id).duties := tended.frame rfl rfl rfl
      obtain ⟨-, entries, last, pruned⟩ := prune_tended struck c.deps
      simp only [Call.apply, equal, pruned]
      exact (strike_held held enrolled).adds [] (List.append_nil _).symm (by simp) rfl rfl (Int.add_zero _).symm
  | loadBindings paths =>
    refine held.adds [.bindings paths] rfl ?_ rfl rfl ?_
    · intro n member
      cases List.mem_singleton.mp member
      exact ⟨rfl, rfl, fun _ => rfl⟩
    · have sum : s.pending + 1 + s.armed.length = s.pending + s.armed.length + (1 : Nat) := by omega
      exact sum

-- The program stops at a snapshot that is being published, so that a task is left over.
theorem advance_crash (env : Environment) (s : Session) (task : Task) :
    (advance env s task).2.crash = s.crash ∨ (advance env s task).1.isSome = true := by
  by_cases filing : task.isFiling = true
  · obtain ⟨_, _, _, equal⟩ := advance_files env s filing
    rw [equal]
    exact .inl rfl
  · cases task with
    | merge id =>
      simp only [advance, onMerge]
      split
      · exact .inl rfl
      · split <;> exact .inl rfl
    | publish id tree =>
      simp only [advance, onPublish]
      split
      · exact .inr rfl
      · split
        · exact .inl rfl
        · split <;> exact .inl rfl
    | request contexts next => cases contexts <;> exact .inr rfl
    | retry | enroll | dependents | bindings => exact .inr rfl
    | release => exact .inl rfl
    | _ => exact absurd rfl filing

theorem prune_frame (s : Session) (paths : List Bytes) : (s.prune paths).tasks = s.tasks ∧ (s.prune paths).crash = s.crash := by
  induction paths generalizing s with
  | nil => exact ⟨rfl, rfl⟩
  | cons path rest ih =>
    rcases prune_cons s path rest with equal | ⟨e, -, -, -, equal⟩ <;> rw [equal]
    · exact ih s
    · rw [dropEntry_eq]
      exact ih _

theorem apply_crash (s : Session) (c : Call) :
    (c.apply s).crash = s.crash ∧ ((c.apply s).tasks = [] → s.tasks = []) := by
  cases c with
  | change path text =>
    obtain ⟨entries, last, pending, frame⟩ := ensureEntry_files s path
    simp only [Call.apply, change, frame]
    split <;> exact ⟨rfl, id⟩
  | close path =>
    cases found : s.entry? path with
    | none => simp [Call.apply, close, found]
    | some e =>
      obtain ⟨last, -, equal⟩ := close_eq found
      simp only [Call.apply, equal]
      exact ⟨rfl, fun none => (List.append_eq_nil_iff.mp none).1⟩
  | openContext | loadBindings =>
    simp [Call.apply, openContext, loadBindings, addPending]
  | remove id =>
    rcases remove_cases s id with same | ⟨c, -, -, equal⟩
    · simp [Call.apply, same]
    · obtain ⟨tasks, crash⟩ := prune_frame (s.strike id) c.deps
      simp only [Call.apply, equal, tasks, crash]
      exact ⟨rfl, fun none => none⟩

structure Sound (s : Session) : Prop where
  tended : Tended s s.duties
  held : Held s
  stuck : s.tasks = [] → s.crash = none

theorem empty_sound : Sound empty where
  tended := ⟨⟨List.nodup_nil, nofun, nofun⟩, nofun, nofun, List.nodup_nil, nofun⟩
  held := ⟨nofun, List.nodup_nil, nofun, nofun, fun _ => rfl, rfl⟩
  stuck _ := rfl

theorem apply_sound {s : Session} (sound : Sound s) (c : Call) : Sound (c.apply s) where
  tended := apply_tended sound.tended c
  held := apply_held sound.tended sound.held c
  stuck none := (apply_crash s c).1.trans (sound.stuck ((apply_crash s c).2 none))

theorem act_sound {env : Environment} {s t : Session} {a : Action} (sound : Sound s) (step : act env s a = some t) :
    Sound t := by
  have running := running_of_act step
  have tended := act_tended sound.held.proper sound.tended step
  cases a with
  | call c =>
    obtain ⟨-, rfl⟩ := act_call_iff.mp step
    exact apply_sound sound c
  | work k =>
    obtain ⟨-, task, present, rfl⟩ := act_work_iff.mp step
    refine ⟨tended, ?_, fun ended => ?_⟩
    · exact resume_held env (s := { s with tasks := s.tasks.eraseIdx k }) (sound.held.perm (pick_perm present))
    · refine ((advance_crash env _ task).resolve_right fun goes => ?_).trans running
      obtain ⟨next, equal⟩ := Option.isSome_iff_exists.mp goes
      simp [resume, equal] at ended
  | fire k =>
    obtain ⟨-, u, present, rfl⟩ := act_fire_iff.mp step
    refine ⟨tended, sound.held.adds [.fired u] rfl ?_ rfl rfl ?_, fun _ => running⟩
    · intro n member
      cases List.mem_singleton.mp member
      exact ⟨rfl, rfl, fun _ => rfl⟩
    · have length := (pick_perm present).length_eq
      have one : [Task.fired u].countP Task.counted = 1 := rfl
      rw [List.length_cons] at length
      rw [one]
      dsimp only
      omega

end DeviceTree.Session
