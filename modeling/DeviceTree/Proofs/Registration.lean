import DeviceTree.Binding.Loader
import Mathlib

namespace DeviceTree

structure Binding.Extends (b d : Binding) : Prop where
  file : b.file = d.file
  compatible : b.compatible = d.compatible
  properties : d.properties <+: b.properties
  cells : d.cells <+: b.cells

namespace Binding.Extends

theorem inherit {b d : Binding} (grown : b.Extends d) (base : Binding) : (b.inherit base).Extends d where
  file := grown.file
  compatible := grown.compatible
  properties := grown.properties.trans (List.prefix_append _ _)
  cells := grown.cells.trans (List.prefix_append _ _)

theorem expand (documents : List Binding) (fuel : Nat) (active : List Bytes) (d : Binding) :
    (d.expand documents fuel active).Extends d := by
  cases fuel with
  | zero => exact ⟨rfl, rfl, List.prefix_rfl, List.prefix_rfl⟩
  | succ fuel =>
    refine List.foldlRecOn (motive := fun b => Extends b d) d.includes _ ?_ fun b before name _ => ?_
    · exact ⟨rfl, rfl, List.prefix_rfl, List.prefix_rfl⟩
    · split
      · split
        · exact before
        · exact before.inherit _
      · exact before

end Binding.Extends

namespace Loader

section Tables
variable {α : Type} {path : Bytes} {value : α}

theorem lookup_entry (p : Bytes) (rest : List (Bytes × α)) :
    ((path, value) :: rest).lookup p = if p = path then some value else rest.lookup p := by
  rw [List.lookup_cons]
  by_cases same : p = path
  · simp [same]
  · simp [same, beq_false_of_ne same]

theorem lookup_forget (path p : Bytes) (held : List (Bytes × α)) :
    (forget path held).lookup p = if p = path then none else held.lookup p := by
  induction held with
  | nil => simp [forget]
  | cons entry rest ih =>
    obtain ⟨key, value⟩ := entry
    rw [lookup_entry]
    by_cases dropped : key = path
    · have shorter : forget path ((key, value) :: rest) = forget path rest := by simp [forget, dropped]
      rw [shorter, ih, dropped]
      split <;> rfl
    · have kept : forget path ((key, value) :: rest) = (key, value) :: forget path rest := by simp [forget, dropped]
      rw [kept, lookup_entry, ih]
      by_cases same : p = path
      · simp [same, Ne.symm dropped]
      · simp [same]

end Tables

def findings? (path : Bytes) : Outcome → Option (List Diagnostic)
  | .ok _ => none
  | .error e => some (e.findings path)

variable {l : Loader} {path : Bytes} {outcome : Outcome}

theorem accepted_register (p : Bytes) : (l.register path outcome).accepted.lookup p =
    if p = path then outcome.toOption else l.accepted.lookup p := by
  cases outcome with
  | ok b =>
    rw [register, lookup_entry, lookup_forget]
    split <;> rfl
  | error e => rw [register, lookup_forget, Except.toOption]

theorem refused_register (p : Bytes) : (l.register path outcome).refused.lookup p =
    if p = path then findings? path outcome else l.refused.lookup p := by
  cases outcome with
  | ok b => rw [register, lookup_forget, findings?]
  | error e =>
    rw [register, lookup_entry, lookup_forget]
    split <;> rfl

theorem order_register : (l.register path outcome).order =
    if (l.accepted.lookup path).isSome || (l.refused.lookup path).isSome then l.order else l.order ++ [path] := by
  cases outcome <;> rfl

abbrev History := List (Bytes × Outcome)

namespace History

def latest (history : History) (path : Bytes) : Option Outcome := history.reverse.lookup path

def paths (history : History) : List Bytes := (history.map Prod.fst).eraseDups

def binding? (history : History) (path : Bytes) : Option Binding := (history.latest path).bind Except.toOption

variable {history : History} {path : Bytes}

theorem binding_eq_some {d : Binding} : history.binding? path = some d ↔ history.latest path = some (.ok d) := by
  rw [binding?]
  rcases history.latest path with _ | ⟨_ | _⟩ <;> simp [Except.toOption]

theorem latest_append (outcome : Outcome) (p : Bytes) :
    latest (history ++ [(path, outcome)]) p = if p = path then some outcome else history.latest p := by
  rw [latest, List.reverse_append, List.reverse_singleton, List.singleton_append, lookup_entry, latest]

theorem mem_of_latest {outcome : Outcome} (found : history.latest path = some outcome) : (path, outcome) ∈ history := by
  obtain ⟨later, earlier, split, -⟩ := List.lookup_eq_some_iff.mp found
  rw [← List.mem_reverse, split]
  exact List.mem_append_cons_self

theorem latest_isSome : (history.latest path).isSome ↔ path ∈ history.paths := by
  rw [latest, paths, List.mem_eraseDups, List.lookup_isSome_iff, List.mem_map]
  simp only [List.mem_reverse, beq_iff_eq, @eq_comm _ path]

theorem paths_append (outcome : Outcome) : paths (history ++ [(path, outcome)]) =
    if (history.latest path).isSome then history.paths else history.paths ++ [path] := by
  have again : path ∈ history.map Prod.fst ↔ (history.latest path).isSome := by
    rw [latest_isSome, paths, List.mem_eraseDups]
  rw [paths, List.map_append, List.eraseDups_append, ← paths]
  by_cases known : path ∈ history.map Prod.fst
  · rw [if_pos (again.mp known)]
    simp [List.removeAll, known]
  · rw [if_neg (again.not.mp known)]
    simp [List.removeAll, known, List.eraseDups_cons]

theorem paths_nodup : history.paths.Nodup := by
  induction history using List.reverseRecOn with
  | nil => exact List.nodup_nil
  | append_singleton history entry ih =>
    rw [paths_append]
    split
    · exact ih
    · rename_i fresh
      rw [latest_isSome] at fresh
      exact ih.append (List.nodup_singleton _) (List.disjoint_singleton.mpr fresh)

end History

-- The tables and the order, path by path.
structure Follows (history : History) (l : Loader) : Prop where
  order : l.order = history.paths
  accepted : ∀ path, l.accepted.lookup path = history.binding? path
  refused : ∀ path, l.refused.lookup path = (history.latest path).bind (findings? path)

namespace Follows
variable {history : History}

theorem empty : Follows [] empty := ⟨by simp [History.paths, Loader.empty], fun _ => rfl, fun _ => rfl⟩

theorem held (follows : Follows history l) (path : Bytes) :
    ((l.accepted.lookup path).isSome || (l.refused.lookup path).isSome) = (history.latest path).isSome := by
  rw [follows.accepted, follows.refused, History.binding?]
  rcases history.latest path with _ | ⟨_ | _⟩ <;> rfl

theorem register (follows : Follows history l) (path : Bytes) (outcome : Outcome) :
    Follows (history ++ [(path, outcome)]) (l.register path outcome) where
  order := by rw [order_register, follows.held, follows.order, History.paths_append]
  accepted p := by
    rw [accepted_register, follows.accepted, History.binding?, History.binding?, History.latest_append]
    split <;> rfl
  refused p := by
    rw [refused_register, follows.refused, History.latest_append]
    split
    · rename_i same
      rw [same]
      rfl
    · rfl

theorem registerAll (follows : Follows history l) (batch : List (Bytes × Outcome)) :
    Follows (history ++ batch) (l.registerAll batch) := by
  unfold Loader.registerAll
  induction batch generalizing l history with
  | nil => rwa [List.append_nil]
  | cons entry rest ih =>
    have later := ih (follows.register entry.1 entry.2)
    rwa [List.append_assoc] at later

end Follows

theorem findings_ne_nil (path : Bytes) (e : Refusal) : e.findings path ≠ [] := by
  unfold Refusal.findings
  split
  · simp
  · simpa

theorem file_of_findings {path : Bytes} {e : Refusal} {d : Diagnostic} (told : d ∈ e.findings path) : d.file = path := by
  unfold Refusal.findings at told
  split at told
  · rw [List.mem_singleton.mp told]
  · obtain ⟨flaw, -, rfl⟩ := List.mem_map.mp told
    rfl

structure Records (history : History) (l : Loader) : Prop where
  distinct : l.order.Nodup
  first : l.order = history.paths
  either : ∀ path ∈ l.order, Xor (l.accepted.lookup path).isSome (l.refused.lookup path).isSome
  neither : ∀ path ∉ l.order, l.accepted.lookup path = none ∧ l.refused.lookup path = none
  told : ∀ path found, l.refused.lookup path = some found → found ≠ []
  reported : ∀ path, (∃ d ∈ l.diagnostics, d.file = path) ↔ ∃ e, history.latest path = some (.error e)
  diagnostics : l.diagnostics = history.paths.flatMap fun path => ((history.latest path).bind (findings? path)).getD []
  indexed : List.Forall₂ (fun path b => ∃ d, history.latest path = some (.ok d) ∧ b.Extends d)
    (history.paths.filter fun path => (history.binding? path).isSome) l.catalog.bindings

-- How a loader is called. The documents of a load are read side by side; they are registered in the order in which they
-- were asked for, and a load that is broken off registers none.
inductive Call where
  | add (path : Bytes) (outcome : Outcome)
  | load (batch : List (Bytes × Outcome))

namespace Call

def apply (l : Loader) : Call → Loader
  | .add path outcome => l.register path outcome
  | .load batch => l.registerAll batch

def registrations : Call → History
  | .add path outcome => [(path, outcome)]
  | .load batch => batch

end Call

def run (calls : List Call) : Loader := calls.foldl Call.apply .empty

theorem Follows.call {history : History} (follows : Follows history l) (call : Call) :
    Follows (history ++ call.registrations) (call.apply l) := by
  cases call with
  | add path outcome => exact follows.register path outcome
  | load batch => exact follows.registerAll batch

theorem run_follows (calls : List Call) : Follows (calls.flatMap Call.registrations) (run calls) := by
  induction calls using List.reverseRecOn with
  | nil => exact .empty
  | append_singleton calls call ih =>
    have step := ih.call call
    simpa only [run, List.foldl_append, List.foldl_cons, List.foldl_nil, List.flatMap_append, List.flatMap_singleton]
      using step

theorem forall₂_filterMap {α β : Type} (f : α → Option β) (xs : List α) :
    List.Forall₂ (fun x y => f x = some y) (xs.filter fun x => (f x).isSome) (xs.filterMap f) := by
  induction xs with
  | nil => exact .nil
  | cons x rest ih =>
    cases found : f x with
    | none => simpa [found] using ih
    | some y => simpa [found] using ih

theorem Follows.documents {history : History} (follows : Follows history l) :
    List.Forall₂ (fun path d => history.latest path = some (.ok d))
      (history.paths.filter fun path => (history.binding? path).isSome) l.documents := by
  have taken : l.documents = history.paths.filterMap history.binding? := by
    rw [Loader.documents, follows.order]
    exact List.filterMap_congr fun path _ => follows.accepted path
  rw [taken]
  exact (forall₂_filterMap history.binding? history.paths).imp fun _ _ => History.binding_eq_some.mp

theorem Follows.indexed {history : History} (follows : Follows history l) :
    List.Forall₂ (fun path b => ∃ d, history.latest path = some (.ok d) ∧ b.Extends d)
      (history.paths.filter fun path => (history.binding? path).isSome) l.catalog.bindings := by
  rw [catalog, Catalog.ofDocuments, List.forall₂_map_right_iff]
  exact follows.documents.imp fun path d latest => ⟨d, latest, .expand _ _ _ d⟩

theorem Follows.reported {history : History} (follows : Follows history l) (path : Bytes) :
    (∃ d ∈ l.diagnostics, d.file = path) ↔ ∃ e, history.latest path = some (.error e) := by
  have told : ∀ p, ∀ d ∈ (l.refused.lookup p).getD [], ∃ e, history.latest p = some (.error e) ∧ d ∈ e.findings p := by
    intro p d member
    rw [follows.refused] at member
    rcases latest : history.latest p with _ | ⟨e⟩ | b
    · simp [latest] at member
    · rw [latest] at member
      exact ⟨e, rfl, member⟩
    · simp [latest, findings?] at member
  constructor
  · rintro ⟨d, member, rfl⟩
    obtain ⟨p, -, inside⟩ := List.mem_flatMap.mp member
    obtain ⟨e, latest, given⟩ := told p d inside
    rw [file_of_findings given]
    exact ⟨e, latest⟩
  · rintro ⟨e, latest⟩
    obtain ⟨d, given⟩ := List.exists_mem_of_ne_nil _ (findings_ne_nil path e)
    have listed : path ∈ l.order := by
      rw [follows.order, ← History.latest_isSome, latest]
      rfl
    refine ⟨d, List.mem_flatMap.mpr ⟨path, listed, ?_⟩, file_of_findings given⟩
    rw [follows.refused, latest]
    exact given

theorem Follows.records {history : History} (follows : Follows history l) : Records history l where
  distinct := follows.order ▸ History.paths_nodup
  first := follows.order
  either path listed := by
    rw [follows.order, ← History.latest_isSome] at listed
    obtain ⟨outcome, found⟩ := Option.isSome_iff_exists.mp listed
    rw [follows.accepted, follows.refused, History.binding?, found]
    cases outcome with
    | ok b => exact .inl ⟨rfl, by simp [findings?]⟩
    | error e => exact .inr ⟨rfl, by simp [Except.toOption]⟩
  neither path unlisted := by
    rw [follows.order, ← History.latest_isSome, Option.not_isSome_iff_eq_none] at unlisted
    rw [follows.accepted, follows.refused, History.binding?, unlisted]
    exact ⟨rfl, rfl⟩
  told path found held := by
    rw [follows.refused] at held
    obtain ⟨outcome, -, told⟩ := Option.bind_eq_some_iff.mp held
    cases outcome with
    | ok b => cases told
    | error e =>
      cases told
      exact findings_ne_nil path e
  reported := follows.reported
  diagnostics := by
    rw [Loader.diagnostics, follows.order]
    exact List.flatMap_congr fun path _ => congrArg (·.getD []) (follows.refused path)
  indexed := follows.indexed

-- Whatever is registered, once or again, and however it turns out, the books keep up with it.
theorem run_records (calls : List Call) : Records (calls.flatMap Call.registrations) (run calls) :=
  (run_follows calls).records

example (b : Binding) (e : Refusal) :
    let calls : List Call := [.load [(utf8 "/a", .error e), (utf8 "/b", .ok b)], .add (utf8 "/a") (.ok b),
      .add (utf8 "/b") (.error e)]
    (run calls).order = [utf8 "/a", utf8 "/b"] ∧ (run calls).accepts (utf8 "/a") = true ∧
      (run calls).accepts (utf8 "/b") = false := by
  exact ⟨rfl, rfl, rfl⟩

end Loader
end DeviceTree
