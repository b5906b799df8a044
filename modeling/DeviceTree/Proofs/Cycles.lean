import DeviceTree.Proofs.Traversal

namespace DeviceTree.Merge
open Relation

inductive Leads (look : Bytes → Option File) (roots : List Bytes) : List Bytes → Bytes → Prop where
  | root {r : Bytes} (root : r ∈ roots) : Leads look roots [r] r
  | step {chain : List Bytes} {p t : Bytes} (before : Leads look roots chain p) (includes : Includes look p t) :
      Leads look roots (chain ++ [t]) t

section Chains

variable {look : Bytes → Option File} {roots chain : List Bytes} {p q : Bytes}

theorem Leads.reaches (leads : Leads look roots chain p) : Reaches look roots p := by
  induction leads with
  | root root => exact ⟨_, root, .refl⟩
  | step _ includes ih =>
    obtain ⟨r, root, way⟩ := ih
    exact ⟨r, root, way.tail includes⟩

theorem Leads.way (leads : Leads look roots chain p) (on : q ∈ chain) :
    Reaches look roots q ∧ ReflTransGen (Includes look) q p := by
  induction leads with
  | root root =>
    cases List.mem_singleton.mp on
    exact ⟨⟨_, root, .refl⟩, .refl⟩
  | @step chain p t before includes ih =>
    rcases List.mem_append.mp on with early | last
    · exact ⟨(ih early).1, (ih early).2.tail includes⟩
    · cases List.mem_singleton.mp last
      exact ⟨(before.step includes).reaches, .refl⟩

end Chains

def IsCycle (d : Diagnostic) : Prop := ∃ links, d.finding = .includeCycle links

-- A finding that stands on an include of a file whose target is on the chain that leads to the file.
def Closes (look : Bytes → Option File) (roots : List Bytes) (d : Diagnostic) : Prop :=
  ∃ f i t chain, look d.file = some f ∧ .include i ∈ f.document.items ∧ i.isHeader = false ∧ f.target? i = some t ∧
    d.range = i.pathRange ∧ Leads look roots chain d.file ∧ t ∈ chain ∧ d.finding = .includeCycle (chain ++ [t])

theorem Closes.cycle {look : Bytes → Option File} {roots : List Bytes} {d : Diagnostic} (closes : Closes look roots d) :
    ¬ Acyclic look roots := by
  obtain ⟨f, i, t, chain, found, member, header, aim, -, leads, on, -⟩ := closes
  obtain ⟨reached, way⟩ := leads.way on
  exact fun acyclic => acyclic t reached (.tail' way ⟨f, i, found, member, header, aim⟩)

section Findings

variable {files : List File} {roots chain : List Bytes} {f : File} {items : List Item} {m n : Merge}

theorem Tells.mem (tells : Tells m n) {d : Diagnostic} (old : d ∈ m.diagnostics) : d ∈ n.diagnostics := by
  obtain ⟨-, more, equal, -⟩ := tells
  rw [equal]
  exact List.mem_append_left more old

theorem Tells.old_cycle (tells : Tells m n) {d : Diagnostic} (present : d ∈ n.diagnostics) (cycle : IsCycle d) :
    d ∈ m.diagnostics := by
  obtain ⟨-, more, equal, content⟩ := tells
  rw [equal] at present
  rcases List.mem_append.mp present with old | new
  · exact old
  · obtain ⟨links, finding⟩ := cycle
    have told := content d new
    rw [finding] at told
    exact told.elim

theorem mem_report {d : Diagnostic} {file : Bytes} {range : Range} {finding : Finding} :
    d ∈ (m.report file range finding).diagnostics ↔ d ∈ m.diagnostics ∨ d = ⟨file, range, finding⟩ := by
  simp [report]

theorem Expands.mem (run : Expands files chain f items m n) {d : Diagnostic} (old : d ∈ m.diagnostics) :
    d ∈ n.diagnostics := by
  induction run with
  | done => exact old
  | plain _ _ ih => exact ih ((readPlain_tells _ _ _).mem old)
  | passed _ _ ih => exact ih old
  | cycle _ _ _ _ ih => exact ih (mem_report.mpr (.inl old))
  | missing _ _ _ _ _ ih => exact ih (mem_report.mpr (.inl old))
  | nested _ _ _ _ _ _ ihInner ihRest =>
    rw [← diagnostics_enter] at old
    exact ihRest (ihInner old)

theorem Merges.mem (run : Merges files roots m n) {d : Diagnostic} (old : d ∈ m.diagnostics) : d ∈ n.diagnostics := by
  induction run with
  | done => exact old
  | missing _ _ ih => exact ih (mem_report.mpr (.inl old))
  | loaded _ inner _ ih =>
    rw [← diagnostics_enter] at old
    exact ih (inner.mem old)

def Sound (look : Bytes → Option File) (roots : List Bytes) (m : Merge) : Prop :=
  ∀ d ∈ m.diagnostics, IsCycle d → Closes look roots d

theorem empty_sound {look : Bytes → Option File} : Sound look roots .empty := List.forall_mem_nil _

theorem Sound.report {look : Bytes → Option File} (sound : Sound look roots m) {file : Bytes} {range : Range}
    {finding : Finding} (closes : IsCycle ⟨file, range, finding⟩ → Closes look roots ⟨file, range, finding⟩) :
    Sound look roots (m.report file range finding) := by
  intro d member cycle
  rcases mem_report.mp member with old | rfl
  · exact sound d old cycle
  · exact closes cycle

theorem Sound.enter {look : Bytes → Option File} (sound : Sound look roots m) (path : Bytes) :
    Sound look roots (m.enter path) := by
  intro d member
  rw [diagnostics_enter] at member
  exact sound d member

theorem Expands.sound (run : Expands files chain f items m n) (found : fileAt? files f.path = some f)
    (part : ∀ i ∈ items, i ∈ f.document.items) (leads : Leads (fileAt? files) roots chain f.path)
    (sound : Sound (fileAt? files) roots m) : Sound (fileAt? files) roots n := by
  induction run with
  | done => exact sound
  | plain _ _ ih =>
    refine ih found (fun i member => part i (.tail _ member)) leads fun d present cycle => ?_
    exact sound d ((readPlain_tells _ _ _).old_cycle present cycle) cycle
  | passed _ _ ih => exact ih found (fun i member => part i (.tail _ member)) leads sound
  | @cycle chain f i t items m n aim header closed _ ih =>
    refine ih found (fun i member => part i (.tail _ member)) leads (sound.report fun _ => ?_)
    exact ⟨f, i, t, chain, found, part _ List.mem_cons_self, header, aim, rfl, leads, closed, rfl⟩
  | missing _ _ _ _ _ ih =>
    refine ih found (fun i member => part i (.tail _ member)) leads (sound.report ?_)
    rintro ⟨links, finding⟩
    cases finding
  | @nested chain f g i t items m k n aim header _ loaded _ _ ihInner ihRest =>
    have path := path_of_fileAt loaded
    subst path
    have includes : Includes (fileAt? files) f.path g.path := ⟨f, i, found, part _ List.mem_cons_self, header, aim⟩
    refine ihRest found (fun i member => part i (.tail _ member)) leads ?_
    exact ihInner loaded (fun _ => id) (leads.step includes) (sound.enter _)

theorem Merges.sound {all : List Bytes} (run : Merges files roots m n) (part : ∀ r ∈ roots, r ∈ all)
    (sound : Sound (fileAt? files) all m) : Sound (fileAt? files) all n := by
  induction run with
  | done => exact sound
  | missing _ _ ih =>
    refine ih (fun r member => part r (.tail _ member)) (sound.report ?_)
    rintro ⟨links, finding⟩
    cases finding
  | loaded found inner _ ih =>
    have path := path_of_fileAt found
    subst path
    refine ih (fun r member => part r (.tail _ member)) ?_
    exact inner.sound found (fun _ => id) (.root (part _ List.mem_cons_self)) (sound.enter _)

-- Nothing below a file is on the chain, and nothing below it leads back to itself.
def Clear (look : Bytes → Option File) (chain : List Bytes) (p : Bytes) : Prop :=
  ∀ u, ReflTransGen (Includes look) p u → u ∉ chain ∧ ¬ TransGen (Includes look) u u

theorem clear_missing {look : Bytes → Option File} {t : Bytes} (none : look t = none) (off : t ∉ chain) :
    Clear look chain t := by
  have stays : ∀ u, ¬ Includes look t u := by
    rintro u ⟨f, i, found, -⟩
    cases none.symm.trans found
  intro u way
  rcases way.cases_head with rfl | ⟨v, first, -⟩
  · refine ⟨off, fun cycle => ?_⟩
    obtain ⟨v, first, -⟩ := TransGen.head'_iff.mp cycle
    exact stays v first
  · exact absurd first (stays v)

-- A file is clear if what it includes is, once it is itself on the chain: it is not met again below them.
theorem clear_loaded {look : Bytes → Option File} {t : Bytes} {g : File} (found : look t = some g) (off : t ∉ chain)
    (below : ∀ u ∈ targets g, Clear look (chain ++ [t]) u) : Clear look chain t := by
  have next : ∀ u, Includes look t u → Clear look (chain ++ [t]) u := by
    intro u includes
    obtain ⟨f, there, member⟩ := includes_iff_targets.mp includes
    cases found.symm.trans there
    exact below u member
  intro u way
  rcases way.cases_head with rfl | ⟨v, first, rest⟩
  · refine ⟨off, fun cycle => ?_⟩
    obtain ⟨v, first, back⟩ := TransGen.head'_iff.mp cycle
    exact (next v first t back).1 (List.mem_append_right _ (List.mem_singleton_self t))
  · obtain ⟨apart, once⟩ := next v first u rest
    exact ⟨fun on => apart (List.mem_append_left _ on), once⟩

theorem Expands.clear (run : Expands files chain f items m n) (quiet : ∀ d ∈ n.diagnostics, ¬ IsCycle d) :
    ∀ t ∈ targetsOf f items, Clear (fileAt? files) chain t := by
  induction run with
  | done => simp [targetsOf]
  | plain plain _ ih =>
    rw [targetsOf_plain plain]
    exact ih quiet
  | passed passed _ ih =>
    rw [targetsOf_passed passed]
    exact ih quiet
  | cycle _ _ _ rest _ => exact absurd ⟨_, rfl⟩ (quiet _ (rest.mem (mem_report.mpr (.inr rfl))))
  | missing aim header off absent _ ih =>
    rw [targetsOf_leading aim header, List.forall_mem_cons]
    exact ⟨clear_missing absent off, ih quiet⟩
  | nested aim header off found _ rest ihInner ihRest =>
    rw [targetsOf_leading aim header, List.forall_mem_cons]
    exact ⟨clear_loaded found off (ihInner fun d old => quiet d (rest.mem old)), ihRest quiet⟩

theorem Merges.clear (run : Merges files roots m n) (quiet : ∀ d ∈ n.diagnostics, ¬ IsCycle d) :
    ∀ r ∈ roots, Clear (fileAt? files) [] r := by
  induction run with
  | done => exact List.forall_mem_nil _
  | missing absent _ ih =>
    rw [List.forall_mem_cons]
    exact ⟨clear_missing absent List.not_mem_nil, ih quiet⟩
  | loaded found inner rest ih =>
    rw [List.forall_mem_cons]
    exact ⟨clear_loaded found List.not_mem_nil (inner.clear fun d old => quiet d (rest.mem old)), ih quiet⟩

theorem Merges.cycle_iff (run : Merges files roots .empty n) :
    (∃ d ∈ n.diagnostics, IsCycle d) ↔ ¬ Acyclic (fileAt? files) roots := by
  constructor
  · rintro ⟨d, member, cycle⟩
    exact (run.sound (fun _ => id) empty_sound d member cycle).cycle
  · intro cyclic
    by_contra quiet
    push Not at quiet
    refine cyclic fun p reached => ?_
    obtain ⟨r, root, way⟩ := reached
    exact (run.clear quiet r root p way).2

end Findings

theorem ofText_quiet (source : Source) (dirs : List Bytes) (path text : Bytes) :
    ∀ d ∈ (File.ofText source dirs path text).diagnostics, ¬ IsCycle d := by
  rintro d member ⟨links, finding⟩
  rcases ofText_findings member with ⟨problem, other⟩ | ⟨target, other⟩
  · cases finding.symm.trans other
  · cases finding.symm.trans other

end DeviceTree.Merge

namespace DeviceTree.Tree
open Merge

-- Behind what the files say of themselves, which is no cycle in files that were read, stands what the merge found.
theorem merge_finds_cycles (name : Bytes) (roots : List Bytes) (files : List File) (bindings : Option Catalog) :
    ∃ found, (merge name roots files bindings).diagnostics =
        ((merge name roots files bindings).files.flatMap fun p => ((fileAt? files p).map File.diagnostics).getD []) ++ found ∧
      ((∃ d ∈ found, IsCycle d) ↔
        ∃ p, Reaches (fileAt? files) roots p ∧ Relation.TransGen (Includes (fileAt? files)) p p) ∧
      (∀ d ∈ found, IsCycle d → Closes (fileAt? files) roots d) ∧
      ((∀ f ∈ files, ∃ source dirs, f = .ofText source dirs f.path f.text) →
        ∀ d ∈ (merge name roots files bindings).diagnostics, IsCycle d → d ∈ found) := by
  have run := roots_merge files roots .empty
  refine ⟨_, rfl, ?_, run.sound (fun _ => id) empty_sound, ?_⟩
  · rw [run.cycle_iff, Acyclic]
    push Not
    rfl
  · intro read d member cycle
    rcases List.mem_append.mp member with own | told
    · obtain ⟨p, -, said⟩ := List.mem_flatMap.mp own
      cases loaded : fileAt? files p with
      | none =>
        rw [loaded] at said
        cases said
      | some f =>
        rw [loaded] at said
        obtain ⟨source, dirs, equal⟩ := read f (List.mem_of_find?_eq_some loaded)
        rw [equal] at said
        exact absurd cycle (ofText_quiet source dirs _ _ d said)
    · exact told

end DeviceTree.Tree
