import DeviceTree.Proofs.Registration

namespace DeviceTree.Binding

def Stamped (path : Bytes) : Binding → Prop
  | ⟨file, _, _, _, _, _, _, _, none⟩ => file = path
  | ⟨file, _, _, _, _, _, _, _, some child⟩ => file = path ∧ child.Stamped path

theorem stamped_iff {path : Bytes} {b : Binding} :
    b.Stamped path ↔ b.file = path ∧ ∀ c, b.child = some c → c.Stamped path := by
  obtain ⟨file, _, _, _, _, _, _, _, child⟩ := b
  cases child <;> simp [Stamped]

structure Shelved (documents : List Binding) : Prop where
  distinct : (documents.map file).Nodup
  stamped : ∀ d ∈ documents, d.Stamped d.file

theorem Shelved.unique {documents : List Binding} (shelved : Shelved documents) {d e : Binding} (here : d ∈ documents)
    (there : e ∈ documents) (same : d.file = e.file) : d = e :=
  List.inj_on_of_nodup_map shelved.distinct here there same

theorem ofYaml_stamped {path : Bytes} {fuel : Nat} {v : Yaml} {b : Binding} (read : ofYaml path fuel v = some b) :
    b.Stamped path := by
  induction fuel generalizing v b with
  | zero => cases read
  | succ fuel ih =>
    cases v with
    | map entries =>
      rw [ofYaml] at read
      simp only [Option.bind_eq_bind, Option.bind_eq_some_iff] at read
      obtain ⟨_, -, _, -, _, -, _, -, _, -, _, -, _, -, child, nested, built⟩ := read
      cases built
      refine stamped_iff.mpr ⟨rfl, fun c declared => ?_⟩
      cases declared
      unfold optional at nested
      split at nested
      · cases nested
      · obtain ⟨made, inner, same⟩ := Option.map_eq_some_iff.mp nested
        cases same
        exact ih inner
    | _ => cases read

theorem ofText_stamped {path text : Bytes} {b : Binding} (read : ofText path text = .ok b) : b.Stamped path := by
  have inner : ∀ v, (ofYaml path (text.length + 1) v).elim (.error Rejection.invalid) Except.ok = .ok b →
      b.Stamped path := by
    intro v accepted
    cases made : ofYaml path (text.length + 1) v with
    | none => simp [made] at accepted
    | some out =>
      rw [made] at accepted
      cases accepted
      exact ofYaml_stamped made
  unfold ofText at read
  split at read
  · cases read
  · exact inner _ read
  · split at read
    · cases read
    · exact inner _ read

end DeviceTree.Binding

namespace DeviceTree.Loader
open Binding

theorem outcome_stamped {source : Source} {path : Bytes} {d : Binding} (read : outcome source path = .ok d) :
    d.Stamped path := by
  unfold outcome readDocument at read
  split at read
  · rename_i text _
    cases made : ofText path text with
    | error e => simp [made, Except.mapError] at read
    | ok b =>
      rw [made] at read
      cases read
      exact ofText_stamped made
  · cases read

theorem Follows.shelved {history : History} {l : Loader} (follows : Follows history l)
    (stamped : ∀ path d, (path, .ok d) ∈ history → d.Stamped path) : Shelved l.documents := by
  have files : l.documents.map file = history.paths.filter fun path => (history.binding? path).isSome := by
    have same : List.Forall₂ (· = ·) (l.documents.map file)
        (history.paths.filter fun path => (history.binding? path).isSome) := by
      rw [List.forall₂_map_left_iff]
      refine follows.documents.flip.imp fun d path latest => ?_
      exact (stamped_iff.mp (stamped path d (History.mem_of_latest latest))).1
    rwa [List.forall₂_eq_eq_eq] at same
  refine ⟨files ▸ History.paths_nodup.filter _, fun d member => ?_⟩
  obtain ⟨path, -, held⟩ := List.mem_filterMap.mp member
  rw [follows.accepted, History.binding_eq_some] at held
  have own := stamped path d (History.mem_of_latest held)
  rwa [(stamped_iff.mp own).1]

theorem load_shelved (source : Source) (paths : List Bytes) : Shelved (empty.load source paths).documents := by
  refine (Follows.empty.registerAll _).shelved fun path d member => ?_
  obtain ⟨p, -, equal⟩ := List.mem_map.mp member
  obtain ⟨rfl, read⟩ := Prod.mk.inj equal
  exact outcome_stamped read

end DeviceTree.Loader

namespace DeviceTree.Binding

theorem depth_pos (b : Binding) : 0 < b.depth := by
  obtain ⟨_, _, _, _, _, _, _, _, child⟩ := b
  cases child <;> simp [depth]

theorem depth_of_child {b c : Binding} (child : b.child = some c) : b.depth = c.depth + 1 := by
  obtain ⟨_, _, _, _, _, _, _, _, _⟩ := b
  cases child
  simp [depth]

theorem mem_of_findDocument {documents : List Binding} {name : Bytes} {d : Binding}
    (found : findDocument documents name = some d) : d ∈ documents :=
  List.mem_reverse.mp (List.mem_of_find?_eq_some found)

-- What is left to do in an expansion: a whole binding, or to fold some includes into what has been taken over so far.
inductive Task where
  | whole (b : Binding)
  | rest (names : List Bytes) (taken : Binding)

inductive Expands (documents : List Binding) : List Bytes → Task → Binding → Prop where
  | alone {active : List Bytes} {b out : Binding} (childless : b.child = none)
      (rest : Expands documents (b.file :: active) (.rest b.includes b) out) :
      Expands documents active (.whole b) out
  | parent {active : List Bytes} {b c expanded out : Binding} (child : b.child = some c)
      (inner : Expands documents active (.whole c) expanded)
      (rest : Expands documents (b.file :: active) (.rest b.includes { b with child := some expanded }) out) :
      Expands documents active (.whole b) out
  | done {active : List Bytes} {taken : Binding} : Expands documents active (.rest [] taken) taken
  | missing {active names : List Bytes} {name : Bytes} {taken out : Binding}
      (absent : findDocument documents name = none) (rest : Expands documents active (.rest names taken) out) :
      Expands documents active (.rest (name :: names) taken) out
  | closed {active names : List Bytes} {name : Bytes} {base taken out : Binding}
      (found : findDocument documents name = some base) (open' : base.file ∈ active)
      (rest : Expands documents active (.rest names taken) out) :
      Expands documents active (.rest (name :: names) taken) out
  | nested {active names : List Bytes} {name : Bytes} {base expanded taken out : Binding}
      (found : findDocument documents name = some base) (off : base.file ∉ active)
      (inner : Expands documents active (.whole base) expanded)
      (rest : Expands documents active (.rest names (taken.inherit expanded)) out) :
      Expands documents active (.rest (name :: names) taken) out

theorem Expands.functional {documents : List Binding} {active : List Bytes} {task : Task} {out other : Binding}
    (one : Expands documents active task out) (two : Expands documents active task other) : other = out := by
  induction one generalizing other with
  | alone childless _ ih =>
    cases two with
    | alone _ rest => exact ih rest
    | parent child => cases childless.symm.trans child
  | parent child _ _ ihInner ihRest =>
    cases two with
    | alone childless => cases childless.symm.trans child
    | parent child' inner rest =>
      cases child.symm.trans child'
      cases ihInner inner
      exact ihRest rest
  | done =>
    cases two
    rfl
  | missing absent _ ih =>
    cases two with
    | missing _ rest => exact ih rest
    | closed found => cases absent.symm.trans found
    | nested found => cases absent.symm.trans found
  | closed found active _ ih =>
    cases two with
    | missing absent => cases absent.symm.trans found
    | closed _ _ rest => exact ih rest
    | nested found' off =>
      cases found.symm.trans found'
      exact absurd active off
  | nested found off _ _ ihInner ihRest =>
    cases two with
    | missing absent => cases absent.symm.trans found
    | closed found' active =>
      cases found.symm.trans found'
      exact absurd active off
    | nested found' _ inner rest =>
      cases found.symm.trans found'
      cases ihInner inner
      exact ihRest rest

def Task.Keeps (c out : Binding) : Task → Prop
  | .whole _ => True
  | .rest _ taken => taken.child = some c → out.child = some c

theorem Expands.keeps {documents : List Binding} {active : List Bytes} {task : Task} {out : Binding} (c : Binding)
    (run : Expands documents active task out) : task.Keeps c out := by
  induction run with
  | alone => trivial
  | parent => trivial
  | done => exact id
  | missing _ _ ih => exact ih
  | closed _ _ _ ih => exact ih
  | nested _ _ _ _ _ ih =>
    intro own
    exact ih (by simp [inherit, own])

theorem Expands.child {documents : List Binding} {active : List Bytes} {d c b : Binding}
    (run : Expands documents active (.whole d) b) (own : d.child = some c) :
    ∃ e, b.child = some e ∧ Expands documents active (.whole c) e := by
  cases run with
  | alone childless => cases childless.symm.trans own
  | parent child inner rest =>
    cases child.symm.trans own
    exact ⟨_, rest.keeps _ rfl, inner⟩

-- Every expansion ends: a step goes to a child-binding or to a document that is not being expanded.

def idleDepth : List Binding → List Bytes → Nat
  | [], _ => 0
  | d :: rest, active => (if active.elem d.file then 0 else d.depth) + idleDepth rest active

theorem idleDepth_cons_le (documents : List Binding) (active : List Bytes) (path : Bytes) :
    idleDepth documents (path :: active) ≤ idleDepth documents active := by
  induction documents with
  | nil => exact Nat.le_refl 0
  | cons d rest ih =>
    simp only [idleDepth, List.elem_iff, List.mem_cons]
    by_cases here : d.file ∈ active
    · simpa only [here, or_true, if_true, Nat.zero_add] using ih
    · simp only [here, or_false, if_false]
      split <;> omega

theorem idleDepth_enter {documents : List Binding} {active : List Bytes} {base : Binding} (member : base ∈ documents)
    (off : base.file ∉ active) :
    base.depth + idleDepth documents (base.file :: active) ≤ idleDepth documents active := by
  induction documents with
  | nil => cases member
  | cons d rest ih =>
    simp only [idleDepth, List.elem_iff, List.mem_cons]
    rcases List.mem_cons.mp member with rfl | member
    · have later := idleDepth_cons_le rest active base.file
      simp only [true_or, if_true, off, if_false]
      omega
    · have shrunk := ih member
      by_cases here : d.file ∈ active
      · simpa only [here, or_true, if_true, Nat.zero_add] using shrunk
      · simp only [here, or_false, if_false]
        split <;> omega

section Fuel

variable {documents : List Binding}

theorem includes_expand {fuel : Nat} {active : List Bytes} (names : List Bytes) (taken : Binding)
    (deeper : ∀ base ∈ documents, base.file ∉ active →
      Expands documents active (.whole base) (expand documents fuel active base)) :
    Expands documents active (.rest names taken) (names.foldl (fun out name =>
      match findDocument documents name with
      | some base => if active.elem base.file then out else out.inherit (expand documents fuel active base)
      | none => out) taken) := by
  induction names generalizing taken with
  | nil => exact .done
  | cons name rest ih =>
    rw [List.foldl_cons]
    cases found : findDocument documents name with
    | none => exact .missing found (ih taken)
    | some base =>
      by_cases here : base.file ∈ active
      · simp only [List.elem_iff.mpr here, if_true]
        exact .closed found here (ih taken)
      · simp only [mt List.elem_iff.mp here, if_false, Bool.false_eq_true]
        exact .nested found here (deeper base (mem_of_findDocument found) here) (ih _)

theorem expand_expands (stamped : ∀ d ∈ documents, d.Stamped d.file) {fuel : Nat} {active : List Bytes} {b : Binding}
    (own : b.Stamped b.file) (enough : b.depth + idleDepth documents (b.file :: active) ≤ fuel) :
    Expands documents active (.whole b) (expand documents fuel active b) := by
  induction fuel generalizing active b with
  | zero =>
    have positive := depth_pos b
    omega
  | succ fuel ih =>
    have includes : ∀ taken, Expands documents (b.file :: active) (.rest b.includes taken) _ := fun taken =>
      includes_expand b.includes taken fun base member off => by
        refine ih (stamped base member) ?_
        have shrunk := idleDepth_enter member off
        have positive := depth_pos b
        omega
    cases child : b.child with
    | none =>
      have same : { b with child := none } = b := by
        cases b
        cases child
        rfl
      rw [expand, child, Option.map_none, same]
      exact .alone child (includes b)
    | some c =>
      obtain ⟨-, nested⟩ := stamped_iff.mp own
      have file : c.file = b.file := (stamped_iff.mp (nested c child)).1
      have shallower := depth_of_child child
      rw [expand, child, Option.map_some]
      refine .parent child (ih ?_ ?_) (includes _)
      · rw [file]
        exact nested c child
      · rw [file]
        omega

theorem sum_depth_eq (documents : List Binding) : idleDepth documents [] + 1 = (documents.map depth).foldr (· + ·) 1 := by
  induction documents with
  | nil => rfl
  | cons d rest ih =>
    have step : idleDepth (d :: rest) [] = d.depth + idleDepth rest [] := by simp [idleDepth]
    rw [List.map_cons, List.foldr_cons, ← ih, step]
    omega

end Fuel

-- A depth-first search with a memory: a document whose file was not visited is visited, and then what it includes
-- before what has been waiting.

def targets (documents : List Binding) (b : Binding) : List Binding := b.includes.filterMap (findDocument documents)

inductive Visits (documents : List Binding) : List Binding → List Binding → List Binding → Prop where
  | done {seen : List Binding} : Visits documents seen [] seen
  | again {seen waiting out : List Binding} {b : Binding} (old : b.file ∈ seen.map file)
      (rest : Visits documents seen waiting out) : Visits documents seen (b :: waiting) out
  | enter {seen waiting out : List Binding} {b : Binding} (new : b.file ∉ seen.map file)
      (rest : Visits documents (seen ++ [b]) (targets documents b ++ waiting) out) :
      Visits documents seen (b :: waiting) out

def Reaches (documents : List Binding) : Binding → Binding → Prop :=
  Relation.ReflTransGen fun b e => e ∈ targets documents b

theorem mem_of_targets {documents : List Binding} {b e : Binding} (leads : e ∈ targets documents b) : e ∈ documents := by
  obtain ⟨name, -, found⟩ := List.mem_filterMap.mp leads
  exact mem_of_findDocument found

namespace Visits

variable {documents seen waiting out other : List Binding}

theorem functional (one : Visits documents seen waiting out) (two : Visits documents seen waiting other) :
    other = out := by
  induction one generalizing other with
  | done =>
    cases two
    rfl
  | again old _ ih =>
    cases two with
    | again _ rest => exact ih rest
    | enter new => exact absurd old new
  | enter new _ ih =>
    cases two with
    | again old => exact absurd old new
    | enter _ rest => exact ih rest

theorem nodup (visits : Visits documents seen waiting out) (once : (seen.map file).Nodup) : (out.map file).Nodup := by
  induction visits with
  | done => exact once
  | again _ _ ih => exact ih once
  | enter new _ ih =>
    refine ih ?_
    rw [List.map_append, List.nodup_append]
    refine ⟨once, List.nodup_singleton _, ?_⟩
    rintro a old b here rfl
    exact new (List.mem_singleton.mp here ▸ old)

theorem grows (visits : Visits documents seen waiting out) : seen <+: out := by
  induction visits with
  | done => exact List.prefix_refl _
  | again _ _ ih => exact ih
  | enter _ _ ih => exact (List.prefix_append _ _).trans ih

theorem reached {b : Binding} (visits : Visits documents seen waiting out) (known : ∀ e ∈ seen, Reaches documents b e)
    (ahead : ∀ e ∈ waiting, Reaches documents b e) : ∀ e ∈ out, Reaches documents b e := by
  induction visits with
  | done => exact known
  | again _ _ ih => exact ih known fun e member => ahead e (List.mem_cons_of_mem _ member)
  | @enter seen waiting out d _ _ ih =>
    have here := ahead d List.mem_cons_self
    refine ih (fun e member => ?_) (fun e member => ?_)
    · rcases List.mem_append.mp member with old | new
      · exact known e old
      · cases List.mem_singleton.mp new
        exact here
    · rcases List.mem_append.mp member with inner | later
      · exact here.tail inner
      · exact ahead e (List.mem_cons_of_mem _ later)

end Visits

-- What a search has visited: a document that is not being expanded is known by its file, and then what it includes
-- was visited too.
structure Settled (documents : List Binding) (active : List Bytes) (seen : List Binding) : Prop where
  known : ∀ e ∈ documents, e.file ∉ active → e.file ∈ seen.map file → e ∈ seen
  closed : ∀ e ∈ documents, e.file ∉ active → e.file ∈ seen.map file → ∀ t ∈ targets documents e, t.file ∈ seen.map file

-- Entering a binding keeps what was settled, since it is then being expanded.
theorem Settled.enter {documents seen : List Binding} {active : List Bytes} (settled : Settled documents active seen)
    (b : Binding) : Settled documents (b.file :: active) (seen ++ [b]) := by
  have older : ∀ e : Binding, e.file ∉ b.file :: active → e.file ∈ (seen ++ [b]).map file →
      e.file ∉ active ∧ e.file ∈ seen.map file := by
    intro e off visited
    rw [List.mem_cons, not_or] at off
    rw [List.map_append, List.mem_append] at visited
    exact ⟨off.2, visited.resolve_right fun here => off.1 (List.mem_singleton.mp here)⟩
  constructor
  · intro e member off visited
    obtain ⟨off, visited⟩ := older e off visited
    exact List.mem_append_left _ (settled.known e member off visited)
  · intro e member off visited t leads
    obtain ⟨off, visited⟩ := older e off visited
    rw [List.map_append]
    exact List.mem_append_left _ (settled.closed e member off visited t leads)

-- What an expansion adds to the visited documents: as a search does to which they are given in front.
structure Searched (documents : List Binding) (active : List Bytes) (more seen out : List Binding) : Prop where
  keeps : ∀ e ∈ seen, e ∈ out
  settled : Settled documents active out
  covers : ∀ t ∈ more, t.file ∈ out.map file
  visits : ∀ waiting last, Visits documents out waiting last → Visits documents seen (more ++ waiting) last

namespace Searched

variable {documents more seen mid out : List Binding} {active : List Bytes} {b : Binding}

theorem keepsFile (searched : Searched documents active more seen out) {path : Bytes} (old : path ∈ seen.map file) :
    path ∈ out.map file := by
  obtain ⟨e, member, rfl⟩ := List.mem_map.mp old
  exact List.mem_map_of_mem (searched.keeps e member)

theorem idle (settled : Settled documents active seen) : Searched documents active [] seen seen :=
  ⟨fun _ => id, settled, List.forall_mem_nil _, fun _ _ => id⟩

theorem again (old : b.file ∈ seen.map file) (searched : Searched documents active more seen out) :
    Searched documents active (b :: more) seen out where
  keeps := searched.keeps
  settled := searched.settled
  covers := List.forall_mem_cons.mpr ⟨searched.keepsFile old, searched.covers⟩
  visits waiting last rest := .again old (searched.visits waiting last rest)

theorem append {front : List Binding} (one : Searched documents active front seen mid)
    (two : Searched documents active more mid out) : Searched documents active (front ++ more) seen out where
  keeps e old := two.keeps e (one.keeps e old)
  settled := two.settled
  covers t member := (List.mem_append.mp member).elim (fun early => two.keepsFile (one.covers t early)) (two.covers t)
  visits waiting last rest := by
    rw [List.append_assoc]
    exact one.visits _ last (two.visits waiting last rest)

theorem enter (shelved : Shelved documents) (member : b ∈ documents) (new : b.file ∉ seen.map file)
    (inner : Searched documents (b.file :: active) (targets documents b) (seen ++ [b]) out) :
    Searched documents active [b] seen out := by
  have here : b ∈ out := inner.keeps b (List.mem_append_right _ (List.mem_singleton_self b))
  refine ⟨fun e old => inner.keeps e (List.mem_append_left _ old), ⟨?_, ?_⟩, ?_, ?_⟩
  · intro e there off visited
    by_cases same : e.file = b.file
    · cases shelved.unique there member same
      exact here
    · exact inner.settled.known e there (List.not_mem_cons_of_ne_of_not_mem same off) visited
  · intro e there off visited
    by_cases same : e.file = b.file
    · cases shelved.unique there member same
      exact inner.covers
    · exact inner.settled.closed e there (List.not_mem_cons_of_ne_of_not_mem same off) visited
  · exact List.forall_mem_singleton.mpr (List.mem_map_of_mem here)
  · exact fun waiting last rest => .enter new (inner.visits waiting last rest)

end Searched

-- A reading of a binding that inheriting completes and that child-bindings have no part in.
structure Inherited {α : Type} (read : Binding → Option α) : Prop where
  inherit : ∀ b base, read (b.inherit base) = (read b).or (read base)
  childless : ∀ b c, read { b with child := c } = read b

theorem lookup_inheritEntries {α : Type} (own base : List (Bytes × α)) (name : Bytes) :
    (inheritEntries own base).lookup name = (own.lookup name).or (base.lookup name) := by
  rw [inheritEntries, List.lookup_append]
  cases here : own.lookup name with
  | some v => rfl
  | none =>
    rw [Option.none_or, Option.none_or]
    induction base with
    | nil => rfl
    | cons entry rest ih =>
      obtain ⟨key, v⟩ := entry
      by_cases same : name = key
      · subst same
        simp [here]
      · have apart : (name == key) = false := beq_false_of_ne same
        by_cases lacking : (own.lookup key).isNone = true
        · simp only [List.filter_cons, lacking, if_true, List.lookup_cons, apart, ih]
        · simp only [List.filter_cons, lacking, if_false, Bool.false_eq_true, List.lookup_cons, apart, ih]

theorem property_inherited (name : Bytes) : Inherited (·.property? name) :=
  ⟨fun _ _ => lookup_inheritEntries _ _ name, fun _ _ => rfl⟩

theorem specifierCells_inherited (space : Bytes) : Inherited (·.specifierCells? space) :=
  ⟨fun _ _ => lookup_inheritEntries _ _ space, fun _ _ => rfl⟩

section Search

variable {documents : List Binding} {α : Type} {read : Binding → Option α}

-- Expanding what was visited before finds nothing that the visited documents do not declare. `base` is what was
-- active then, to which the expansion only adds.
def Task.Idles (documents : List Binding) (read : Binding → Option α) (base : List Bytes) (seen : List Binding)
    (out : Binding) : Task → Prop
  | .whole b => b ∈ documents → b.file ∉ base → b.file ∈ seen.map file → (read out).isSome →
      (seen.findSome? read).isSome
  | .rest names taken => (∀ t ∈ names.filterMap (findDocument documents), t.file ∈ seen.map file) →
      ((read taken).isSome → (seen.findSome? read).isSome) → (read out).isSome → (seen.findSome? read).isSome

theorem Expands.idles (inherited : Inherited read) {base active : List Bytes} {seen : List Binding} {task : Task}
    {out : Binding} (run : Expands documents active task out) (grown : ∀ p ∈ base, p ∈ active)
    (settled : Settled documents base seen) : task.Idles documents read base seen out := by
  have own : ∀ b ∈ documents, b.file ∉ base → b.file ∈ seen.map file → (read b).isSome →
      (seen.findSome? read).isSome := by
    intro b member off visited declared
    exact List.findSome?_isSome_iff.mpr ⟨b, settled.known b member off visited, declared⟩
  induction run with
  | alone childless rest ih =>
    intro member off visited
    exact ih (fun p inside => List.mem_cons_of_mem _ (grown p inside)) (settled.closed _ member off visited)
      (own _ member off visited)
  | parent child inner rest _ ih =>
    intro member off visited
    refine ih (fun p inside => List.mem_cons_of_mem _ (grown p inside)) (settled.closed _ member off visited) ?_
    rw [inherited.childless]
    exact own _ member off visited
  | done => exact fun _ taken => taken
  | missing absent _ ih =>
    intro ahead
    rw [List.filterMap_cons_none absent] at ahead
    exact ih grown ahead
  | closed found _ _ ih =>
    intro ahead
    rw [List.filterMap_cons_some found] at ahead
    exact ih grown (List.forall_mem_cons.mp ahead).2
  | nested found off _ _ ihInner ihRest =>
    intro ahead declared
    rw [List.filterMap_cons_some found] at ahead
    obtain ⟨here, ahead⟩ := List.forall_mem_cons.mp ahead
    refine ihRest grown ahead fun more => ?_
    rw [inherited.inherit, Option.isSome_or, Bool.or_eq_true] at more
    exact more.elim declared (ihInner grown (mem_of_findDocument found) (fun inside => off (grown _ inside)) here)

-- What an expansion does, told as a search: it goes on from what was visited, and with what was read of that it reads
-- what the search finds first.
def Task.Searches (documents : List Binding) (read : Binding → Option α) (active : List Bytes) (out : Binding) :
    Task → Prop
  | .whole b => ∀ seen, b ∈ documents → b.file ∉ active → (∀ p ∈ active, p ∈ seen.map file) →
      Settled documents active seen → ∃ last, Searched documents active [b] seen last ∧
        last.findSome? read = (seen.findSome? read).or (read out)
  | .rest names taken => ∀ seen front, (∀ p ∈ active, p ∈ seen.map file) → Settled documents active seen →
      seen.findSome? read = Option.or front (read taken) →
      ∃ last, Searched documents active (names.filterMap (findDocument documents)) seen last ∧
        last.findSome? read = front.or (read out)

theorem Task.Searches.enter {active : List Bytes} {b taken out : Binding} {seen : List Binding}
    (own : read taken = read b) (rest : (Task.rest b.includes taken).Searches documents read (b.file :: active) out)
    (line : ∀ p ∈ active, p ∈ seen.map file) (settled : Settled documents active seen) :
    ∃ last, Searched documents (b.file :: active) (targets documents b) (seen ++ [b]) last ∧
      last.findSome? read = (seen.findSome? read).or (read out) := by
  refine rest (seen ++ [b]) (seen.findSome? read) ?_ (settled.enter b) ?_
  · rw [List.map_append]
    exact List.forall_mem_cons.mpr ⟨List.mem_append_right _ (List.mem_singleton_self _),
      fun p inside => List.mem_append_left _ (line p inside)⟩
  · rw [List.findSome?_append, own]
    simp

theorem Task.Searches.whole (shelved : Shelved documents) {active : List Bytes} {b taken out : Binding}
    (own : read taken = read b) (rest : (Task.rest b.includes taken).Searches documents read (b.file :: active) out)
    (idles : ∀ seen, Settled documents active seen → (Task.whole b).Idles documents read active seen out) :
    (Task.whole b).Searches documents read active out := by
  intro seen member off line settled
  by_cases visited : b.file ∈ seen.map file
  · refine ⟨seen, (Searched.idle settled).again visited, ?_⟩
    have nothing := idles seen settled member off visited
    cases before : seen.findSome? read with
    | some v => rfl
    | none =>
      cases now : read out with
      | none => rfl
      | some v => simp [before, now] at nothing
  · obtain ⟨last, searched, value⟩ := rest.enter own line settled
    exact ⟨last, searched.enter shelved member visited, value⟩

theorem Expands.searches (shelved : Shelved documents) (inherited : Inherited read) {active : List Bytes} {task : Task}
    {out : Binding} (run : Expands documents active task out) : task.Searches documents read active out := by
  induction run with
  | alone childless rest ih =>
    exact ih.whole shelved rfl fun seen settled =>
      (Expands.alone childless rest).idles inherited (fun _ => id) settled
  | parent child inner rest _ ih =>
    exact ih.whole shelved (inherited.childless _ _) fun seen settled =>
      (Expands.parent child inner rest).idles inherited (fun _ => id) settled
  | done => exact fun seen front _ settled value => ⟨seen, .idle settled, value⟩
  | missing absent _ ih =>
    intro seen front line settled value
    rw [List.filterMap_cons_none absent]
    exact ih seen front line settled value
  | closed found here _ ih =>
    intro seen front line settled value
    obtain ⟨last, searched, value⟩ := ih seen front line settled value
    rw [List.filterMap_cons_some found]
    exact ⟨last, searched.again (line _ here), value⟩
  | nested found off _ _ ihInner ihRest =>
    intro seen front line settled value
    obtain ⟨mid, inner, inherits⟩ := ihInner seen (mem_of_findDocument found) off line settled
    obtain ⟨last, rest, value⟩ := ihRest mid front (fun p inside => inner.keepsFile (line p inside)) inner.settled (by
      rw [inherits, value, inherited.inherit, Option.or_assoc])
    rw [List.filterMap_cons_some found]
    exact ⟨last, inner.append rest, value⟩

theorem Expands.searched (shelved : Shelved documents) (inherited : Inherited read) {b out : Binding}
    (run : Expands documents [] (.whole b) out) : ∃ order, Searched documents [b.file] (targets documents b) [b] order ∧
      order.findSome? read = read out := by
  have settled : Settled documents [] [] := by
    constructor
    · intro e _ _ visited
      cases visited
    · intro e _ _ visited
      cases visited
  cases run with
  | alone _ rest => exact (rest.searches shelved inherited).enter rfl (List.forall_mem_nil _) settled
  | parent _ _ rest =>
    exact (rest.searches shelved inherited).enter (inherited.childless _ _) (List.forall_mem_nil _) settled

end Search

theorem Searched.visit {documents order : List Binding} {b : Binding}
    (searched : Searched documents [b.file] (targets documents b) [b] order) : Visits documents [] [b] order :=
  .enter List.not_mem_nil (searched.visits [] order .done)

theorem Searched.mem_iff {documents order : List Binding} {d : Binding} (shelved : Shelved documents)
    (member : d ∈ documents) (searched : Searched documents [d.file] (targets documents d) [d] order) (e : Binding) :
    e ∈ order ↔ Reaches documents d e := by
  constructor
  · refine searched.visit.reached (List.forall_mem_nil _) (fun e here => ?_) e
    cases List.mem_singleton.mp here
    exact .refl
  · intro reaches
    have whole : Searched documents [] [d] [] order := searched.enter shelved member List.not_mem_nil
    have all : e ∈ documents ∧ e ∈ order := by
      induction reaches with
      | refl =>
        exact ⟨member, whole.settled.known d member List.not_mem_nil (whole.covers d (List.mem_singleton_self d))⟩
      | tail _ leads ih =>
        have visited := whole.settled.closed _ ih.1 List.not_mem_nil (List.mem_map_of_mem ih.2) _ leads
        exact ⟨mem_of_targets leads, whole.settled.known _ (mem_of_targets leads) List.not_mem_nil visited⟩
    exact all.2

structure Bequeathed (documents : List Binding) (d b : Binding) (order : List Binding) {α : Type}
    (read : Binding → Option α) : Prop where
  first : read b = order.findSome? read
  declared : (read b).isSome ↔ ∃ e, Reaches documents d e ∧ (read e).isSome
  own : ∀ v, read d = some v → read b = some v

theorem Expands.bequeathed {documents order : List Binding} {d b : Binding} {α : Type} {read : Binding → Option α}
    (shelved : Shelved documents) (inherited : Inherited read) (member : d ∈ documents)
    (run : Expands documents [] (.whole d) b) (visits : Visits documents [] [d] order) :
    Bequeathed documents d b order read := by
  obtain ⟨other, searched, value⟩ := run.searched shelved inherited
  cases visits.functional searched.visit
  obtain ⟨rest, rfl⟩ : [d] <+: order := by
    cases visits with
    | again old => cases old
    | enter _ rest => exact rest.grows
  refine ⟨value.symm, ?_, fun v declares => ?_⟩
  · rw [← value, List.findSome?_isSome_iff]
    simp only [searched.mem_iff shelved member]
  · rw [← value]
    simp [declares]

end DeviceTree.Binding

namespace DeviceTree.Catalog
open Binding

-- Each document is expanded, and the expansion ends; a child-binding of its own is expanded in the same way. For every
-- name it has the property and the cells that the first document declares in depth-first order from it, if one that is
-- reached does.
theorem ofDocuments_inherits (documents : List Binding) (shelved : Shelved documents) :
    (ofDocuments documents).bindings.length = documents.length ∧
    ∀ (i : Nat) (d b : Binding), documents[i]? = some d → (ofDocuments documents).bindings[i]? = some b →
      (∀ out, Expands documents [] (.whole d) out ↔ out = b) ∧
      (∀ c, d.child = some c → ∃ e, b.child = some e ∧ Expands documents [] (.whole c) e) ∧
      ∃ order, (∀ out, Visits documents [] [d] out ↔ out = order) ∧ (order.map file).Nodup ∧
        (∀ e, e ∈ order ↔ Reaches documents d e) ∧
        (∀ name, Bequeathed documents d b order (·.property? name)) ∧
        ∀ space, Bequeathed documents d b order (·.specifierCells? space) := by
  refine ⟨List.length_map _, fun i d b here expanded => ?_⟩
  have member : d ∈ documents := List.mem_of_getElem? here
  have run : Expands documents [] (.whole d) b := by
    simp only [ofDocuments, List.getElem?_map, here, Option.map_some, Option.some.injEq] at expanded
    subst expanded
    refine expand_expands shelved.stamped (shelved.stamped d member) ?_
    have less : d.depth + idleDepth documents [d.file] ≤ idleDepth documents [] :=
      idleDepth_enter member List.not_mem_nil
    have fuel := sum_depth_eq documents
    omega
  obtain ⟨order, searched, -⟩ := run.searched shelved (property_inherited [])
  have visits := searched.visit
  exact ⟨fun out => ⟨run.functional, fun equal => equal ▸ run⟩, fun c => run.child, order,
    fun out => ⟨visits.functional, fun equal => equal ▸ visits⟩, visits.nodup List.nodup_nil,
    searched.mem_iff shelved member, fun name => run.bequeathed shelved (property_inherited name) member visits,
    fun space => run.bequeathed shelved (specifierCells_inherited space) member visits⟩

-- Two ways lead to the last document, which leads back; the second of them declares its cells anew.
def ring : List Binding :=
  let document (file : String) (includes : List String) (cells : List (Bytes × List Bytes)) : Binding :=
    ⟨utf8 file, [], [], [], [], [], cells, includes.map utf8, none⟩
  [document "/a.yaml" ["b.yaml", "c.yaml"] [], document "/b.yaml" ["d.yaml"] [],
    document "/c.yaml" ["d.yaml"] [(utf8 "pin", [utf8 "flags"])],
    document "/d.yaml" ["a.yaml"] [(utf8 "pin", [utf8 "number"])]]

theorem ring_inherits : Shelved ring ∧ ∃ b, (ofDocuments ring).bindings[0]? = some b ∧
    b.specifierCells? (utf8 "pin") = some [utf8 "number"] := by
  have shelved : Shelved ring := by
    refine ⟨by decide +kernel, ?_⟩
    simp [ring, Stamped]
  have search : Visits ring [] [ring[0]] [ring[0], ring[1], ring[3], ring[2]] := by
    have leads : targets ring ring[0] = [ring[1], ring[2]] ∧ targets ring ring[1] = [ring[3]] ∧
        targets ring ring[2] = [ring[3]] ∧ targets ring ring[3] = [ring[0]] := by cbv
    refine .enter (by decide +kernel) (leads.1 ▸ ?_)
    refine .enter (by decide +kernel) (leads.2.1 ▸ ?_)
    refine .enter (by decide +kernel) (leads.2.2.2 ▸ ?_)
    refine .again (by decide +kernel) ?_
    refine .enter (by decide +kernel) (leads.2.2.1 ▸ ?_)
    exact .again (by decide +kernel) .done
  obtain ⟨length, each⟩ := ofDocuments_inherits ring shelved
  obtain ⟨b, here⟩ : ∃ b, (ofDocuments ring).bindings[0]? = some b := ⟨_, List.getElem?_eq_getElem (length ▸ by decide)⟩
  obtain ⟨-, -, order, visits, -, -, -, cells⟩ := each 0 ring[0] b rfl here
  cases (visits _).mp search
  refine ⟨shelved, b, here, ?_⟩
  rw [(cells _).first]
  decide +kernel

end DeviceTree.Catalog
