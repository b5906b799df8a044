import DeviceTree.Proofs.Statements
import Mathlib.Data.List.Induction
import Mathlib.Logic.Relation

namespace DeviceTree.Merge

def Misses (m : Merge) (path : Bytes) : Prop := ∃ d ∈ m.diagnostics, d.finding = .notLoaded path

def MissesRoot (m : Merge) (path : Bytes) : Prop := ∃ d ∈ m.diagnostics, d.finding = .rootNotLoaded path

-- What can be found about a declaration or a deletion. The other findings are about files.
def IsContent : Finding → Prop
  | .labelMoved .. | .undefinedNode _ | .deletedByName | .deletedMissing _ | .deletedRoot => True
  | _ => False

theorem ofText_findings {source : Source} {dirs : List Bytes} {path text : Bytes} {d : Diagnostic}
    (member : d ∈ (File.ofText source dirs path text).diagnostics) :
    (∃ problem, d.finding = .malformed problem) ∨ ∃ target, d.finding = .includeNotFound target := by
  rcases List.mem_append.mp member with syntaxes | missing
  · obtain ⟨e, -, rfl⟩ := List.mem_map.mp syntaxes
    exact .inl ⟨_, rfl⟩
  · obtain ⟨i, -, told⟩ := List.mem_filterMap.mp missing
    split at told
    · cases Option.some.inj told
      exact .inr ⟨_, rfl⟩
    · cases told

def Tells (m n : Merge) : Prop :=
  n.files = m.files ∧ ∃ more, n.diagnostics = m.diagnostics ++ more ∧ ∀ d ∈ more, IsContent d.finding

namespace Tells

variable {m n k : Merge}

theorem refl (m : Merge) : Tells m m := ⟨rfl, [], (List.append_nil _).symm, nofun⟩

theorem trans (first : Tells m n) (second : Tells n k) : Tells m k := by
  obtain ⟨files, more, equal, other⟩ := first
  obtain ⟨files', more', equal', other'⟩ := second
  refine ⟨files'.trans files, more ++ more', by rw [equal', equal, List.append_assoc], ?_⟩
  intro d member
  exact (List.mem_append.mp member).elim (other d) (other' d)

theorem of_eq (files : n.files = m.files) (diagnostics : n.diagnostics = m.diagnostics) : Tells m n :=
  ⟨files, [], by rw [diagnostics, List.append_nil], nofun⟩

theorem report (file : Bytes) (range : Range) {finding : Finding} (content : IsContent finding) :
    Tells m (m.report file range finding) := by
  refine ⟨rfl, [⟨file, range, finding⟩], rfl, ?_⟩
  intro d member
  cases List.mem_singleton.mp member
  exact content

theorem foldl {α : Type} (step : Merge → α → Merge) (tells : ∀ m x, Tells m (step m x)) (xs : List α) (m : Merge) :
    Tells m (xs.foldl step m) := by
  induction xs generalizing m with
  | nil => exact refl m
  | cons x rest ih => exact (tells m x).trans (ih _)

end Tells

theorem addLabel_tells (m : Merge) (file : Bytes) (id : NodeId) (l : Label) : Tells m (m.addLabel file id l) := by
  unfold addLabel
  split
  · split
    · exact .of_eq rfl rfl
    · refine ⟨rfl, [_], rfl, ?_⟩
      intro d member
      cases List.mem_singleton.mp member
      exact trivial
  · exact .of_eq rfl rfl

theorem openBlock_tells (m : Merge) (file : Bytes) (decl : NodeDecl) (node : Option NodeId) :
    Tells m (m.openBlock file decl node).2 := by
  unfold openBlock
  cases node with
  | none => exact .of_eq rfl rfl
  | some id =>
    have opened : Tells m { m with
        fragments := m.fragments.push ⟨file, decl, some id, false⟩
        store := m.store.modify id fun n => { n with fragments := n.fragments ++ [m.fragments.size] } } := .of_eq rfl rfl
    exact opened.trans (Tells.foldl _ (fun m l => addLabel_tells m file id l) _ _)

theorem deleteNode_tells (m : Merge) (file : Bytes) (d : Delete) (target : Option NodeId) :
    Tells m (m.deleteNode file d target) := by
  unfold deleteNode
  split
  · exact .report _ _ trivial
  · split
    · exact .report _ _ trivial
    · rename_i id _ parent _
      have cut : Tells m { m with store := m.store.detach parent (m.store.node id).name } := .of_eq rfl rfl
      exact cut.trans (Tells.foldl retire (fun m i => .of_eq rfl rfl) _ _)

theorem deleteIn_tells (m : Merge) (file : Bytes) (node : Option NodeId) (d : Delete) : Tells m (m.deleteIn file node d) := by
  unfold deleteIn
  split
  · exact .refl m
  · split
    · exact .of_eq rfl rfl
    · exact deleteNode_tells m file d _
    · exact deleteNode_tells m file d _

theorem childOf_tells (m : Merge) (node : Option NodeId) (name : Bytes) : Tells m (m.childOf node name).2 := by
  cases node with
  | none => exact .refl m
  | some id => exact .of_eq rfl rfl

theorem statements_tells (file : Bytes) (node : Option NodeId) (fragment : FragmentId) (stmts : List Statement)
    (m : Merge) : Tells m (statements file node fragment stmts m) := by
  induction node, fragment, stmts, m using statements_induct file with
  | nil node fragment m =>
    rw [statements_nil]
    exact .refl m
  | property node fragment decl rest m ih =>
    rw [statements_property]
    have set : Tells m (m.setProperty node ⟨decl, fragment⟩) := by
      cases node <;> exact .of_eq rfl rfl
    exact set.trans ih
  | block node fragment head body rest m child m₁ inner m₂ grown opened ihBody ihRest =>
    have first := childOf_tells m node head.heading.nodeName
    rw [grown] at first
    have second := openBlock_tells m₁ file ⟨head, body⟩ child
    rw [opened] at second
    simp only [statements_node, grown, opened]
    exact ((first.trans second).trans ihBody).trans ihRest
  | delete node fragment d rest m ih =>
    rw [statements_delete]
    exact (deleteIn_tells m file node d).trans ih

theorem topNode_tells (m : Merge) (file : Bytes) (decl : NodeDecl) : Tells m (m.topNode file decl) := by
  have block : ∀ (k : Merge) (node : Option NodeId), Tells k
      (statements file node (k.openBlock file decl node).1 decl.body (k.openBlock file decl node).2) :=
    fun k node => (openBlock_tells k file decl node).trans (statements_tells file node _ decl.body _)
  unfold topNode
  split
  rename_i node k chosen
  refine Tells.trans ?_ (block k node)
  split at chosen
  · split at chosen
    · cases chosen
      exact .refl m
    · cases chosen
      exact .report _ _ trivial
  · split at chosen
    · cases chosen
      exact .refl m
    · have grown := childOf_tells m (some Store.rootId)
      rename_i name _ _
      have made := grown name
      rw [chosen] at made
      exact made

theorem topDelete_tells (m : Merge) (file : Bytes) (d : Delete) : Tells m (m.topDelete file d) := by
  unfold topDelete
  split
  · exact deleteNode_tells m file d _
  · exact .report _ _ trivial

def Includes (look : Bytes → Option File) (p t : Bytes) : Prop :=
  ∃ f i, look p = some f ∧ .include i ∈ f.document.items ∧ i.isHeader = false ∧ f.target? i = some t

theorem path_of_fileAt {files : List File} {p : Bytes} {f : File} (found : fileAt? files p = some f) : f.path = p := by
  simpa using List.find?_some found

def readItem (files : List File) (fuel : Nat) (chain : List Bytes) (f : File) (m : Merge) : Item → Merge
  | .include i =>
    match f.target? i with
    | none => m
    | some target =>
      if i.isHeader then m
      else if chain.elem target then m.report f.path i.pathRange (.includeCycle (chain ++ [target]))
      else
        match fileAt? files target with
        | some g => expand files fuel chain g m
        | none => m.report f.path i.pathRange (.notLoaded target)
  | .node decl => m.topNode f.path decl
  | .delete d => m.topDelete f.path d
  | .directive _ => m

theorem expand_succ (files : List File) (fuel : Nat) (chain : List Bytes) (f : File) (m : Merge) :
    expand files (fuel + 1) chain f m =
      f.document.items.foldl (readItem files fuel (chain ++ [f.path]) f) (m.enter f.path) := by
  unfold expand
  congr 1

-- The fuel bounds how many files may still be entered along a chain.
def Enough (files : List File) (chain : List Bytes) (fuel : Nat) : Prop :=
  (files.filter fun f => !chain.elem f.path).length ≤ fuel

theorem enough_length (files : List File) : Enough files [] files.length :=
  List.length_filter_le _ _

theorem Enough.enter {files : List File} {chain : List Bytes} {fuel : Nat} {f : File} (enough : Enough files chain fuel)
    (found : fileAt? files f.path = some f) (off : f.path ∉ chain) :
    ∃ less, fuel = less + 1 ∧ Enough files (chain ++ [f.path]) less := by
  have present : f ∈ files.filter fun f => !chain.elem f.path :=
    List.mem_filter.mpr ⟨List.mem_of_find?_eq_some found, by simpa using off⟩
  have fewer : (files.filter fun g => !(chain ++ [f.path]).elem g.path).length <
      (files.filter fun g => !chain.elem g.path).length := by
    have same : (files.filter fun g => !(chain ++ [f.path]).elem g.path) =
        (files.filter fun g => !chain.elem g.path).filter fun g => g.path != f.path := by
      rw [List.filter_filter]
      refine List.filter_congr fun g _ => ?_
      by_cases same : g.path = f.path <;> simp [same]
    rw [same]
    refine List.length_filter_lt_length_iff_exists.mpr ⟨f, present, by simp⟩
  unfold Enough at enough
  exact ⟨fuel - 1, by omega, by unfold Enough; omega⟩

-- What reading a file, or some of its items, adds to a merge.
structure Reads (files : List File) (origin : Bytes) (m n : Merge) : Prop where
  keeps : ∀ p ∈ m.files, p ∈ n.files
  reports : ∀ d ∈ m.diagnostics, d ∈ n.diagnostics
  entered : ∀ p ∈ n.files, p ∈ m.files ∨
    Relation.ReflTransGen (Includes (fileAt? files)) origin p ∧ (fileAt? files p).isSome = true ∧
      ∀ t, Includes (fileAt? files) p t → t ∈ n.files ∨ n.Misses t
  missed : ∀ t, n.Misses t → m.Misses t ∨ fileAt? files t = none ∧ ∃ p ∈ n.files, Includes (fileAt? files) p t
  roots : ∀ t, n.MissesRoot t → m.MissesRoot t

namespace Reads

variable {files : List File} {origin : Bytes} {m n k : Merge}

theorem misses (reads : Reads files origin m n) {t : Bytes} (missed : m.Misses t) : n.Misses t := by
  obtain ⟨d, member, equal⟩ := missed
  exact ⟨d, reads.reports d member, equal⟩

theorem trans (first : Reads files origin m n) (second : Reads files origin n k) : Reads files origin m k where
  keeps p present := second.keeps p (first.keeps p present)
  reports d present := second.reports d (first.reports d present)
  entered p present := by
    rcases second.entered p present with before | new
    · rcases first.entered p before with old | ⟨led, loaded, answered⟩
      · exact .inl old
      · refine .inr ⟨led, loaded, fun t includes => ?_⟩
        exact (answered t includes).imp (second.keeps t) second.misses
    · exact .inr new
  missed t missed := by
    rcases second.missed t missed with before | ⟨absent, p, present, includes⟩
    · rcases first.missed t before with old | ⟨absent, p, present, includes⟩
      · exact .inl old
      · exact .inr ⟨absent, p, second.keeps p present, includes⟩
    · exact .inr ⟨absent, p, present, includes⟩
  roots t missed := first.roots t (second.roots t missed)

theorem of_other (more : List Diagnostic) (same : n.files = m.files) (equal : n.diagnostics = m.diagnostics ++ more)
    (other : ∀ d ∈ more, ∀ p, d.finding ≠ .notLoaded p ∧ d.finding ≠ .rootNotLoaded p) : Reads files origin m n := by
  refine ⟨fun p present => same ▸ present, fun d present => ?_, fun p present => .inl (same ▸ present), ?_, ?_⟩
  · rw [equal]
    exact List.mem_append_left _ present
  · rintro t ⟨d, member, finding⟩
    rw [equal] at member
    rcases List.mem_append.mp member with old | new
    · exact .inl ⟨d, old, finding⟩
    · exact absurd finding (other d new t).1
  · rintro t ⟨d, member, finding⟩
    rw [equal] at member
    rcases List.mem_append.mp member with old | new
    · exact ⟨d, old, finding⟩
    · exact absurd finding (other d new t).2

theorem of_tells (tells : Tells m n) : Reads files origin m n := by
  obtain ⟨same, more, equal, content⟩ := tells
  refine .of_other more same equal fun d member p => ⟨fun finding => ?_, fun finding => ?_⟩ <;>
  · have about := content d member
    rw [finding] at about
    exact about

theorem refl (m : Merge) : Reads files origin m m := of_tells (.refl m)

theorem from_include {next : Bytes} (reads : Reads files next m n) (includes : Includes (fileAt? files) origin next) :
    Reads files origin m n where
  keeps := reads.keeps
  reports := reads.reports
  entered p present := (reads.entered p present).imp_right fun ⟨led, rest⟩ =>
    ⟨(Relation.ReflTransGen.single includes).trans led, rest⟩
  missed := reads.missed
  roots := reads.roots

theorem report_missing {t : Bytes} (includes : Includes (fileAt? files) origin t) (present : origin ∈ m.files)
    (absent : fileAt? files t = none) (file : Bytes) (range : Range) :
    Reads files origin m (m.report file range (.notLoaded t)) := by
  refine ⟨fun p => id, fun d old => List.mem_append_left _ old, fun p => .inl, ?_, ?_⟩
  · rintro t' ⟨d, member, finding⟩
    rcases List.mem_append.mp member with old | new
    · exact .inl ⟨d, old, finding⟩
    · cases List.mem_singleton.mp new
      cases finding
      exact .inr ⟨absent, origin, present, includes⟩
  · rintro t' ⟨d, member, finding⟩
    rcases List.mem_append.mp member with old | new
    · exact ⟨d, old, finding⟩
    · cases List.mem_singleton.mp new
      cases finding

end Reads

theorem mem_enter (m : Merge) (path p : Bytes) : p ∈ (m.enter path).files ↔ p ∈ m.files ∨ p = path := by
  unfold enter
  split
  · rename_i there
    refine ⟨.inl, fun either => either.elim id fun equal => ?_⟩
    rw [equal]
    simpa using there
  · simp

theorem diagnostics_enter (m : Merge) (path : Bytes) : (m.enter path).diagnostics = m.diagnostics := by
  unfold enter
  split <;> rfl

theorem items_read {files : List File} {fuel : Nat} {chain : List Bytes} {f : File} (items : List Item) {m : Merge}
    (found : fileAt? files f.path = some f) (part : ∀ i ∈ items, i ∈ f.document.items) (mine : f.path ∈ chain)
    (line : ∀ p ∈ chain, p ∈ m.files)
    (deeper : ∀ (g : File) (k : Merge), fileAt? files g.path = some g → g.path ∉ chain → (∀ p ∈ chain, p ∈ k.files) →
      Reads files g.path k (expand files fuel chain g k) ∧ g.path ∈ (expand files fuel chain g k).files) :
    let n := items.foldl (readItem files fuel chain f) m
    Reads files f.path m n ∧
      ∀ i t, .include i ∈ items → i.isHeader = false → f.target? i = some t → t ∈ n.files ∨ n.Misses t := by
  induction items generalizing m with
  | nil => exact ⟨.refl m, by simp⟩
  | cons item rest ih =>
    have step : Reads files f.path m (readItem files fuel chain f m item) ∧
        ∀ i t, item = .include i → i.isHeader = false → f.target? i = some t →
          t ∈ (readItem files fuel chain f m item).files ∨ (readItem files fuel chain f m item).Misses t := by
      rcases item with inc | directive | d | decl
      · have leads : ∀ t, inc.isHeader = false → f.target? inc = some t → Includes (fileAt? files) f.path t :=
          fun t header target => ⟨f, inc, found, part _ List.mem_cons_self, header, target⟩
        unfold readItem
        dsimp only
        split
        · rename_i none
          refine ⟨.refl m, fun i t same header target => ?_⟩
          cases same
          rw [none] at target
          cases target
        · rename_i target aim
          split
          · rename_i header
            refine ⟨.refl m, fun i t same plain _ => ?_⟩
            cases same
            rw [header] at plain
            cases plain
          · rename_i plain
            have includes := leads target (by simpa using plain) aim
            have only : ∀ i t, Item.include inc = .include i → f.target? i = some t → t = target := by
              intro i t same other
              cases same
              exact Option.some.inj (other.symm.trans aim)
            split
            · rename_i cycle
              refine ⟨.of_other [_] rfl rfl (by simp), fun i t same _ other => ?_⟩
              rw [only i t same other]
              exact .inl (line target (by simpa using cycle))
            · rename_i apart
              split
              · rename_i g loaded
                have path := path_of_fileAt loaded
                obtain ⟨read, reached⟩ := deeper g m (path ▸ loaded) (by rw [path]; simpa using apart) line
                refine ⟨read.from_include (path ▸ includes), fun i t same _ other => ?_⟩
                rw [only i t same other, ← path]
                exact .inl reached
              · rename_i absent
                refine ⟨.report_missing includes (line _ mine) absent _ _, fun i t same _ other => ?_⟩
                rw [only i t same other]
                exact .inr ⟨_, List.mem_append_right _ (List.mem_singleton_self _), rfl⟩
      · exact ⟨.refl m, by simp⟩
      · exact ⟨.of_tells (topDelete_tells m f.path d), by simp⟩
      · exact ⟨.of_tells (topNode_tells m f.path decl), by simp⟩
    obtain ⟨later, answered⟩ := ih (m := readItem files fuel chain f m item)
      (fun i member => part i (.tail _ member)) fun p member => step.1.keeps p (line p member)
    refine ⟨step.1.trans later, ?_⟩
    intro i t member header target
    rcases List.mem_cons.mp member with first | other
    · exact (step.2 i t first.symm header target).imp (later.keeps t) later.misses
    · exact answered i t other header target

theorem expand_reads {files : List File} {fuel : Nat} {chain : List Bytes} {f : File} {m : Merge}
    (enough : Enough files chain fuel) (found : fileAt? files f.path = some f) (off : f.path ∉ chain)
    (line : ∀ p ∈ chain, p ∈ m.files) :
    Reads files f.path m (expand files fuel chain f m) ∧ f.path ∈ (expand files fuel chain f m).files := by
  induction fuel generalizing chain f m with
  | zero =>
    obtain ⟨less, equal, -⟩ := enough.enter found off
    cases equal
  | succ fuel ih =>
    obtain ⟨less, equal, less_⟩ := enough.enter found off
    cases equal
    rw [expand_succ]
    have onLine : ∀ p ∈ chain ++ [f.path], p ∈ (m.enter f.path).files := by
      intro p member
      rw [mem_enter]
      exact (List.mem_append.mp member).imp (line p) List.mem_singleton.mp
    obtain ⟨read, answered⟩ := items_read f.document.items found (fun _ => id) (List.mem_append_right _ (List.mem_singleton_self _))
      onLine fun g k loaded apart before => ih less_ loaded apart before
    have here : f.path ∈ (m.enter f.path).files := (mem_enter m f.path f.path).mpr (.inr rfl)
    refine ⟨⟨?_, ?_, ?_, ?_, ?_⟩, read.keeps _ here⟩
    · exact fun p present => read.keeps p ((mem_enter m f.path p).mpr (.inl present))
    · exact fun d present => read.reports d (by rwa [diagnostics_enter])
    · intro p present
      rcases read.entered p present with before | new
      · rcases (mem_enter m f.path p).mp before with old | rfl
        · exact .inl old
        · refine .inr ⟨.refl, by rw [found]; rfl, ?_⟩
          rintro t ⟨g, i, same, member, header, target⟩
          cases found.symm.trans same
          exact answered i t member header target
      · exact .inr new
    · intro t missed
      have missing := read.missed t missed
      rwa [Misses, diagnostics_enter] at missing
    · intro t missed
      have missing := read.roots t missed
      rwa [MissesRoot, diagnostics_enter] at missing

-- Another table that has the same files where they were entered, and lacks those that were missed.
structure Agrees (files other : List File) (m : Merge) : Prop where
  entered : ∀ p ∈ m.files, fileAt? other p = fileAt? files p
  missed : ∀ t, m.Misses t → fileAt? other t = none

theorem Agrees.before {files other : List File} {origin : Bytes} {m n : Merge} (agrees : Agrees files other n)
    (reads : Reads files origin m n) : Agrees files other m :=
  ⟨fun p present => agrees.entered p (reads.keeps p present), fun t missed => agrees.missed t (reads.misses missed)⟩

theorem items_local {files other : List File} {fuel fuel' : Nat} {chain : List Bytes} {f : File} (items : List Item)
    {m : Merge} (found : fileAt? files f.path = some f) (part : ∀ i ∈ items, i ∈ f.document.items) (mine : f.path ∈ chain)
    (line : ∀ p ∈ chain, p ∈ m.files) (enough : Enough files chain fuel)
    (agrees : Agrees files other (items.foldl (readItem files fuel chain f) m))
    (deeper : ∀ (g : File) (k : Merge), fileAt? files g.path = some g → g.path ∉ chain → (∀ p ∈ chain, p ∈ k.files) →
      Agrees files other (expand files fuel chain g k) → expand other fuel' chain g k = expand files fuel chain g k) :
    items.foldl (readItem other fuel' chain f) m = items.foldl (readItem files fuel chain f) m := by
  induction items generalizing m with
  | nil => rfl
  | cons item rest ih =>
    have reads : ∀ (is : List Item) (k : Merge), (∀ i ∈ is, i ∈ f.document.items) → (∀ p ∈ chain, p ∈ k.files) →
        Reads files f.path k (is.foldl (readItem files fuel chain f) k) :=
      fun is k inside before => (items_read is found inside mine before fun _ _ => expand_reads enough).1
    have first := reads [item] m (fun i member => part i (by simp_all)) line
    have onLine : ∀ p ∈ chain, p ∈ (readItem files fuel chain f m item).files := fun p member => first.keeps p (line p member)
    have whole := reads rest (readItem files fuel chain f m item) (fun i member => part i (.tail _ member)) onLine
    have here : Agrees files other (readItem files fuel chain f m item) := agrees.before whole
    have same : readItem other fuel' chain f m item = readItem files fuel chain f m item := by
      rcases item with inc | directive | d | decl
      · unfold readItem at here ⊢
        dsimp only at here ⊢
        split
        · rfl
        · rename_i target aim
          rw [aim] at here
          dsimp only at here
          split
          · rfl
          · rename_i plain
            rw [if_neg plain] at here
            split
            · rfl
            · rename_i apart
              rw [if_neg apart] at here
              cases loaded : fileAt? files target with
              | none =>
                rw [loaded] at here
                rw [here.missed target ⟨_, List.mem_append_right _ (List.mem_singleton_self _), rfl⟩]
              | some g =>
                rw [loaded] at here
                have path := path_of_fileAt loaded
                have off : g.path ∉ chain := by
                  rw [path]
                  simpa using apart
                have reached := (expand_reads (m := m) enough (path ▸ loaded) off line).2
                have there : fileAt? other target = some g := by
                  rw [← path, here.entered g.path reached, path]
                  exact loaded
                rw [there]
                exact deeper g m (path ▸ loaded) off line here
      · rfl
      · rfl
      · rfl
    rw [List.foldl_cons, List.foldl_cons, same]
    exact ih (fun i member => part i (.tail _ member)) onLine agrees

theorem expand_local {files other : List File} {fuel fuel' : Nat} {chain : List Bytes} {f : File} {m : Merge}
    (enough : Enough files chain fuel) (enough' : Enough other chain fuel') (found : fileAt? files f.path = some f)
    (off : f.path ∉ chain) (line : ∀ p ∈ chain, p ∈ m.files) (agrees : Agrees files other (expand files fuel chain f m)) :
    expand other fuel' chain f m = expand files fuel chain f m := by
  induction fuel generalizing fuel' chain f m with
  | zero =>
    obtain ⟨less, equal, -⟩ := enough.enter found off
    cases equal
  | succ fuel ih =>
    obtain ⟨less, equal, fewer⟩ := enough.enter found off
    cases equal
    have reached := (expand_reads enough found off line).2
    have found' : fileAt? other f.path = some f := (agrees.entered f.path reached).trans found
    obtain ⟨less', rfl, fewer'⟩ := enough'.enter found' off
    rw [expand_succ] at agrees ⊢
    rw [expand_succ]
    refine items_local f.document.items found (fun _ => id) (List.mem_append_right _ (List.mem_singleton_self _)) ?_ fewer
      agrees fun g k loaded apart before => ih fewer fewer' loaded apart before
    intro p member
    rw [mem_enter]
    exact (List.mem_append.mp member).imp (line p) List.mem_singleton.mp

def Reaches (look : Bytes → Option File) (roots : List Bytes) (p : Bytes) : Prop :=
  ∃ r ∈ roots, Relation.ReflTransGen (Includes look) r p

structure Opened (files : List File) (roots : List Bytes) (n : Merge) : Prop where
  entered : ∀ p ∈ n.files, Reaches (fileAt? files) roots p ∧ (fileAt? files p).isSome = true ∧
    ∀ t, Includes (fileAt? files) p t → t ∈ n.files ∨ n.Misses t
  missed : ∀ t, n.Misses t → fileAt? files t = none ∧ ∃ p ∈ n.files, Includes (fileAt? files) p t
  missedRoots : ∀ t, n.MissesRoot t → fileAt? files t = none ∧ t ∈ roots
  started : ∀ r ∈ roots, r ∈ n.files ∨ n.MissesRoot r

theorem addRoot_reads {files : List File} {m : Merge} {root : Bytes} {f : File} (found : fileAt? files root = some f) :
    Reads files root m (m.addRoot files root) ∧ root ∈ (m.addRoot files root).files := by
  have path := path_of_fileAt found
  unfold addRoot
  rw [found]
  have read := expand_reads (m := m) (enough_length files) (path ▸ found) List.not_mem_nil nofun
  rw [path] at read
  exact read

theorem roots_opened (files : List File) (roots : List Bytes) : Opened files roots (roots.foldl (addRoot files) .empty) := by
  induction roots using List.reverseRecOn with
  | nil => exact ⟨nofun, nofun, nofun, nofun⟩
  | append_singleton roots r ih =>
    rw [List.foldl_append]
    generalize roots.foldl (addRoot files) .empty = m at ih ⊢
    have wider : ∀ p, Reaches (fileAt? files) roots p → Reaches (fileAt? files) (roots ++ [r]) p :=
      fun p ⟨o, member, led⟩ => ⟨o, List.mem_append_left _ member, led⟩
    have last : r ∈ roots ++ [r] := List.mem_append_right _ (List.mem_singleton_self r)
    rw [List.foldl_cons, List.foldl_nil]
    cases found : fileAt? files r with
    | some f =>
      obtain ⟨read, reached⟩ := addRoot_reads (m := m) found
      refine ⟨?_, ?_, ?_, ?_⟩
      · intro p present
        rcases read.entered p present with before | ⟨led, loaded, answered⟩
        · obtain ⟨led, loaded, answered⟩ := ih.entered p before
          exact ⟨wider p led, loaded, fun t includes => (answered t includes).imp (read.keeps t) read.misses⟩
        · exact ⟨⟨r, last, led⟩, loaded, answered⟩
      · intro t missed
        rcases read.missed t missed with before | new
        · obtain ⟨absent, p, present, includes⟩ := ih.missed t before
          exact ⟨absent, p, read.keeps p present, includes⟩
        · exact new
      · intro t missed
        obtain ⟨absent, member⟩ := ih.missedRoots t (read.roots t missed)
        exact ⟨absent, List.mem_append_left _ member⟩
      · intro o member
        rcases List.mem_append.mp member with old | new
        · refine (ih.started o old).imp (read.keeps o) ?_
          rintro ⟨d, told, finding⟩
          exact ⟨d, read.reports d told, finding⟩
        · rw [List.mem_singleton.mp new]
          exact .inl reached
    | none =>
      have reported : m.addRoot files r = m.report r .zero (.rootNotLoaded r) := by
        unfold addRoot
        rw [found]
      rw [reported]
      have told : ∀ t, (m.report r .zero (.rootNotLoaded r)).Misses t ↔ m.Misses t := by
        intro t
        simp [Misses, report, or_and_right, exists_or]
      have toldRoot : ∀ t, (m.report r .zero (.rootNotLoaded r)).MissesRoot t ↔ m.MissesRoot t ∨ r = t := by
        intro t
        simp [MissesRoot, report, or_and_right, exists_or]
      refine ⟨?_, ?_, ?_, ?_⟩
      · intro p present
        obtain ⟨led, loaded, answered⟩ := ih.entered p present
        exact ⟨wider p led, loaded, fun t includes => (answered t includes).imp_right (told t).mpr⟩
      · exact fun t missed => ih.missed t ((told t).mp missed)
      · intro t missed
        rcases (toldRoot t).mp missed with before | rfl
        · obtain ⟨absent, member⟩ := ih.missedRoots t before
          exact ⟨absent, List.mem_append_left _ member⟩
        · exact ⟨found, last⟩
      · intro o member
        rcases List.mem_append.mp member with old | new
        · exact (ih.started o old).imp_right fun missed => (toldRoot o).mpr (.inl missed)
        · exact .inr ((toldRoot o).mpr (.inr (List.mem_singleton.mp new).symm))

theorem roots_local {files other : List File} (roots : List Bytes)
    (agrees : Agrees files other (roots.foldl (addRoot files) .empty))
    (roots' : ∀ t, (roots.foldl (addRoot files) .empty).MissesRoot t → fileAt? other t = none) :
    roots.foldl (addRoot other) .empty = roots.foldl (addRoot files) .empty := by
  induction roots using List.reverseRecOn with
  | nil => rfl
  | append_singleton roots r ih =>
    rw [List.foldl_append, List.foldl_cons, List.foldl_nil] at agrees roots' ⊢
    rw [List.foldl_append, List.foldl_cons, List.foldl_nil]
    cases found : fileAt? files r with
    | some f =>
      obtain ⟨read, reached⟩ := addRoot_reads (m := roots.foldl (addRoot files) .empty) found
      have path := path_of_fileAt found
      have there : fileAt? other r = some f := (agrees.entered r reached).trans found
      rw [ih (agrees.before read) fun t ⟨d, told, finding⟩ => roots' t ⟨d, read.reports d told, finding⟩]
      unfold addRoot at agrees ⊢
      rw [found] at agrees ⊢
      rw [there]
      exact expand_local (enough_length files) (enough_length other) (path ▸ found) List.not_mem_nil nofun agrees
    | none =>
      have absent : fileAt? other r = none := by
        refine roots' r ?_
        unfold addRoot
        rw [found]
        exact ⟨_, List.mem_append_right _ (List.mem_singleton_self _), rfl⟩
      have report : ∀ (table : List File) (m : Merge), fileAt? table r = none →
          m.addRoot table r = m.report r .zero (.rootNotLoaded r) := by
        intro table m missing
        unfold addRoot
        rw [missing]
      rw [report files _ found] at agrees roots' ⊢
      rw [report other _ absent, ih]
      · refine ⟨agrees.entered, fun t ⟨d, told, finding⟩ => agrees.missed t ⟨d, List.mem_append_left _ told, finding⟩⟩
      · exact fun t ⟨d, told, finding⟩ => roots' t ⟨d, List.mem_append_left _ told, finding⟩

-- If all that was missed is missing, then what was entered is what the roots lead to and can be looked up.
theorem Opened.entered_iff {look : Bytes → Option File} {files : List File} {roots : List Bytes} {n : Merge}
    (opened : Opened files roots n) (right : ∀ p ∈ roots ++ n.files, fileAt? files p = look p)
    (missing : ∀ t, n.Misses t → look t = none) (p : Bytes) :
    p ∈ n.files ↔ Reaches look roots p ∧ (look p).isSome = true := by
  have entered : ∀ p ∈ n.files, fileAt? files p = look p := fun p present => right p (List.mem_append_right _ present)
  have root : ∀ r ∈ roots, (look r).isSome = true → r ∈ n.files := by
    intro r member found
    rcases opened.started r member with there | missed
    · exact there
    · rw [← right r (List.mem_append_left _ member), (opened.missedRoots r missed).1] at found
      cases found
  have onward : ∀ q t, Includes look q t → q ∈ n.files → (look t).isSome = true → t ∈ n.files := by
    rintro q t ⟨f, i, found, rest⟩ present there
    rcases (opened.entered q present).2.2 t ⟨f, i, (entered q present).trans found, rest⟩ with inside | missed
    · exact inside
    · rw [missing t missed] at there
      cases there
  constructor
  · intro present
    obtain ⟨⟨r, member, led⟩, loaded, -⟩ := opened.entered p present
    refine ⟨⟨r, member, ?_⟩, entered p present ▸ loaded⟩
    -- Every file on the way was entered, so that it is the one that is looked up.
    have along : ∀ q, Relation.ReflTransGen (Includes (fileAt? files)) r q →
        Relation.ReflTransGen (Includes look) r q ∧ ((fileAt? files q).isSome = true → q ∈ n.files) := by
      intro q way
      induction way with
      | refl => exact ⟨.refl, fun found => root r member (right r (List.mem_append_left _ member) ▸ found)⟩
      | tail prior step ih =>
        rename_i q t
        obtain ⟨f, i, there, rest⟩ := step
        have inside : q ∈ n.files := ih.2 (by rw [there]; rfl)
        refine ⟨ih.1.tail ⟨f, i, (entered q inside).symm.trans there, rest⟩, fun found => ?_⟩
        rcases (opened.entered q inside).2.2 t ⟨f, i, there, rest⟩ with reached | missed
        · exact reached
        · rw [(opened.missed t missed).1] at found
          cases found
    exact (along p led).1
  · rintro ⟨⟨r, member, led⟩, found⟩
    induction led with
    | refl => exact root r member found
    | tail prior step ih =>
      obtain ⟨f, i, there, rest⟩ := step
      exact onward _ _ ⟨f, i, there, rest⟩ (ih (by rw [there]; rfl)) found

theorem fileAt_filterMap {look : Bytes → Option File} (paths : ∀ p f, look p = some f → f.path = p) (ps : List Bytes)
    (p : Bytes) : fileAt? (ps.filterMap look) p = if p ∈ ps then look p else none := by
  induction ps with
  | nil => rfl
  | cons q rest ih =>
    cases found : look q with
    | none =>
      rw [List.filterMap_cons_none found, ih]
      by_cases same : p = q
      · rw [same, found]
        simp
      · simp [same]
    | some f =>
      have path := paths q f found
      rw [List.filterMap_cons_some found, fileAt?, List.find?_cons]
      by_cases same : p = q
      · simp [same, path, found]
      · have other : ¬ f.path = p := by
          rw [path]
          exact Ne.symm same
        simp only [other, decide_false]
        have rest := ih
        unfold fileAt? at rest
        rw [rest]
        simp [same]

end DeviceTree.Merge

namespace DeviceTree.Tree
open Merge

def Lacks (t : Tree) (path : Bytes) : Prop := ∃ d ∈ t.diagnostics, d.finding = .notLoaded path

def IsClosure (look : Bytes → Option File) (roots : List Bytes) (files : List File) : Prop :=
  ∀ f, f ∈ files ↔ ∃ p, Reaches look roots p ∧ look p = some f

structure Faithful (look : Bytes → Option File) : Prop where
  paths : ∀ p f, look p = some f → f.path = p
  plain : ∀ p f, look p = some f → ∀ d ∈ f.diagnostics, ∀ t, d.finding ≠ .notLoaded t

theorem merge_local {name : Bytes} {roots : List Bytes} {files other : List File} {bindings : Option Catalog}
    (agrees : Agrees files other (roots.foldl (addRoot files) .empty))
    (missed : ∀ t, (roots.foldl (addRoot files) .empty).MissesRoot t → fileAt? other t = none) :
    merge name roots other bindings = merge name roots files bindings := by
  unfold merge
  rw [roots_local roots agrees missed]
  have own : ((roots.foldl (addRoot files) .empty).files.flatMap fun p => ((fileAt? other p).map File.diagnostics).getD []) =
      (roots.foldl (addRoot files) .empty).files.flatMap fun p => ((fileAt? files p).map File.diagnostics).getD [] := by
    rw [List.flatMap_def, List.flatMap_def, List.map_congr_left fun p present => by rw [agrees.entered p present]]
  simp only [own]

theorem lacks_iff {look : Bytes → Option File} (faithful : Faithful look) (name : Bytes) {roots : List Bytes}
    {files : List File} (bindings : Option Catalog)
    (known : ∀ p ∈ (roots.foldl (addRoot files) .empty).files, ∀ f, fileAt? files p = some f → ∃ q, look q = some f) (t : Bytes) :
    (merge name roots files bindings).Lacks t ↔ (roots.foldl (addRoot files) .empty).Misses t := by
  constructor
  · rintro ⟨d, member, finding⟩
    rcases List.mem_append.mp member with own | told
    · obtain ⟨p, entered, mine⟩ := List.mem_flatMap.mp own
      cases found : fileAt? files p with
      | none => simp [found] at mine
      | some f =>
        obtain ⟨q, looked⟩ := known p entered f found
        exact absurd finding (faithful.plain q f looked d (by simpa [found] using mine) t)
    · exact ⟨d, told, finding⟩
  · rintro ⟨d, told, finding⟩
    exact ⟨d, List.mem_append_right _ told, finding⟩

theorem missing_of_closure {look : Bytes → Option File} (faithful : Faithful look) {name : Bytes} {roots : List Bytes}
    {all : List File} {bindings : Option Catalog} (closure : IsClosure look roots all) {p : Bytes}
    (lacking : (merge name roots all bindings).Lacks p) : look p = none := by
  have looked : ∀ q f, fileAt? all q = some f → Reaches look roots q ∧ look q = some f := by
    intro q f found
    obtain ⟨o, reached, same⟩ := (closure f).mp (List.mem_of_find?_eq_some found)
    cases (faithful.paths o f same).symm.trans (path_of_fileAt found)
    exact ⟨reached, same⟩
  have missed := (lacks_iff faithful name bindings (fun q _ f found => ⟨q, (looked q f found).2⟩) p).mp lacking
  obtain ⟨absent, q, -, f, i, found, member, header, target⟩ := (roots_opened all roots).missed p missed
  obtain ⟨⟨r, root, led⟩, same⟩ := looked q f found
  cases there : look p with
  | none => rfl
  | some g =>
    have reached : Reaches look roots p := ⟨r, root, led.tail ⟨f, i, same, member, header, target⟩⟩
    have present := (closure g).mpr ⟨p, reached, there⟩
    have never := List.find?_eq_none.mp absent g present
    simp [faithful.paths p g there] at never

-- Where a table has the right files at the roots and wherever the merge went, the tree is that of all files the
-- roots lead to if and only if everything it lacks is missing.
theorem closure_iff {look : Bytes → Option File} (faithful : Faithful look) (name : Bytes) (roots : List Bytes)
    (files : List File) (bindings : Option Catalog)
    (right : ∀ p ∈ roots ++ (merge name roots files bindings).files, fileAt? files p = look p) :
    (∃ all, IsClosure look roots all ∧ merge name roots files bindings = merge name roots all bindings) ↔
      ∀ p, (merge name roots files bindings).Lacks p → look p = none := by
  have opened := roots_opened files roots
  have entered : ∀ p ∈ (roots.foldl (addRoot files) .empty).files, fileAt? files p = look p :=
    fun p present => right p (List.mem_append_right _ present)
  have lacks := lacks_iff faithful name bindings fun p present f found =>
    ⟨p, (entered p present).symm.trans found⟩
  constructor
  · rintro ⟨all, closure, equal⟩ p lacking
    rw [equal] at lacking
    exact missing_of_closure faithful closure lacking
  · intro missing
    have visited : ∀ p, p ∈ (roots.foldl (addRoot files) .empty).files ↔ Reaches look roots p ∧ (look p).isSome = true :=
      opened.entered_iff right fun t missed => missing t ((lacks t).mpr missed)
    refine ⟨(roots.foldl (addRoot files) .empty).files.filterMap look, ?_, (merge_local ⟨?_, ?_⟩ ?_).symm⟩
    · intro f
      rw [List.mem_filterMap]
      constructor
      · rintro ⟨p, present, found⟩
        exact ⟨p, ((visited p).mp present).1, found⟩
      · rintro ⟨p, reached, found⟩
        exact ⟨p, (visited p).mpr ⟨reached, by rw [found]; rfl⟩, found⟩
    · intro p present
      rw [fileAt_filterMap faithful.paths, if_pos present, entered p present]
    · intro t missed
      rw [fileAt_filterMap faithful.paths, missing t ((lacks t).mpr missed), ite_self]
    · intro t missed
      obtain ⟨absent, member⟩ := opened.missedRoots t missed
      rw [fileAt_filterMap faithful.paths, ← right t (List.mem_append_left _ member), absent, ite_self]

-- A merge reads only what the roots lead to: a table that has the same files there gives the same tree.
theorem merge_reached {name : Bytes} {roots : List Bytes} {files other : List File} {bindings : Option Catalog}
    (agree : ∀ p, Reaches (fileAt? files) roots p → fileAt? other p = fileAt? files p) :
    merge name roots other bindings = merge name roots files bindings := by
  have opened := roots_opened files roots
  refine merge_local ⟨fun p present => agree p (opened.entered p present).1, ?_⟩ ?_
  · intro t missed
    obtain ⟨absent, p, present, includes⟩ := opened.missed t missed
    obtain ⟨⟨r, root, led⟩, -⟩ := opened.entered p present
    rw [agree t ⟨r, root, led.tail includes⟩, absent]
  · intro t missed
    obtain ⟨absent, root⟩ := opened.missedRoots t missed
    rw [agree t ⟨t, root, .refl⟩, absent]

theorem mem_merge_files (name : Bytes) (roots : List Bytes) (files : List File) (bindings : Option Catalog) (p : Bytes) :
    p ∈ (merge name roots files bindings).files ↔ Reaches (fileAt? files) roots p ∧ (fileAt? files p).isSome = true := by
  have opened := roots_opened files roots
  exact opened.entered_iff (fun _ _ => rfl) (fun t missed => (opened.missed t missed).1) p

end DeviceTree.Tree
