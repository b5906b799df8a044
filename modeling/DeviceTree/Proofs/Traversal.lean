import DeviceTree.Proofs.Inlining
import Mathlib.Data.List.Nodup

namespace DeviceTree.Merge

def targetsOf (f : File) (items : List Item) : List Bytes :=
  items.filterMap fun
    | .include i => if i.isHeader then none else f.target? i
    | _ => none

def targets (f : File) : List Bytes := targetsOf f f.document.items

theorem mem_targetsOf {f : File} {items : List Item} {t : Bytes} :
    t ∈ targetsOf f items ↔ ∃ i, .include i ∈ items ∧ i.isHeader = false ∧ f.target? i = some t := by
  rw [targetsOf, List.mem_filterMap]
  constructor
  · rintro ⟨item, member, leads⟩
    rcases item with i | directive | d | decl
    · cases header : i.isHeader with
      | true => simp [header] at leads
      | false => exact ⟨i, member, header, by simpa [header] using leads⟩
    · cases leads
    · cases leads
    · cases leads
  · rintro ⟨i, member, header, leads⟩
    exact ⟨.include i, member, by simpa [header] using leads⟩

theorem includes_iff_targets {look : Bytes → Option File} {p t : Bytes} :
    Includes look p t ↔ ∃ f, look p = some f ∧ t ∈ targets f := by
  simp only [Includes, targets, mem_targetsOf]
  constructor
  · rintro ⟨f, i, found, rest⟩
    exact ⟨f, found, i, rest⟩
  · rintro ⟨f, found, i, rest⟩
    exact ⟨f, i, found, rest⟩

section Items

variable {f : File} {items : List Item} {item : Item} {i : Include} {t : Bytes}

theorem targetsOf_plain (plain : ∀ i, item ≠ .include i) : targetsOf f (item :: items) = targetsOf f items := by
  rcases item with i | directive | d | decl
  · exact absurd rfl (plain i)
  · rfl
  · rfl
  · rfl

theorem targetsOf_passed (passed : f.target? i = none ∨ i.isHeader = true) :
    targetsOf f (.include i :: items) = targetsOf f items := by
  rcases passed with none | header
  · simp [targetsOf, none]
  · simp [targetsOf, header]

theorem targetsOf_leading (aim : f.target? i = some t) (header : i.isHeader = false) :
    targetsOf f (.include i :: items) = t :: targetsOf f items := by
  simp [targetsOf, aim, header]

end Items

-- A run of the expansion over the items of a file, with nothing that bounds its depth. `chain` ends in the file.
inductive Expands (files : List File) : List Bytes → File → List Item → Merge → Merge → Prop where
  | done {chain : List Bytes} {f : File} {m : Merge} : Expands files chain f [] m m
  | plain {chain : List Bytes} {f : File} {item : Item} {items : List Item} {m n : Merge}
      (plain : ∀ i, item ≠ .include i) (rest : Expands files chain f items (readPlain f.path m item) n) :
      Expands files chain f (item :: items) m n
  | passed {chain : List Bytes} {f : File} {i : Include} {items : List Item} {m n : Merge}
      (passed : f.target? i = none ∨ i.isHeader = true) (rest : Expands files chain f items m n) :
      Expands files chain f (.include i :: items) m n
  | cycle {chain : List Bytes} {f : File} {i : Include} {t : Bytes} {items : List Item} {m n : Merge}
      (aim : f.target? i = some t) (header : i.isHeader = false) (closed : t ∈ chain)
      (rest : Expands files chain f items (m.report f.path i.pathRange (.includeCycle (chain ++ [t]))) n) :
      Expands files chain f (.include i :: items) m n
  | missing {chain : List Bytes} {f : File} {i : Include} {t : Bytes} {items : List Item} {m n : Merge}
      (aim : f.target? i = some t) (header : i.isHeader = false) (off : t ∉ chain) (absent : fileAt? files t = none)
      (rest : Expands files chain f items (m.report f.path i.pathRange (.notLoaded t)) n) :
      Expands files chain f (.include i :: items) m n
  | nested {chain : List Bytes} {f g : File} {i : Include} {t : Bytes} {items : List Item} {m k n : Merge}
      (aim : f.target? i = some t) (header : i.isHeader = false) (off : t ∉ chain) (found : fileAt? files t = some g)
      (inner : Expands files (chain ++ [t]) g g.document.items (m.enter t) k) (rest : Expands files chain f items k n) :
      Expands files chain f (.include i :: items) m n

inductive Merges (files : List File) : List Bytes → Merge → Merge → Prop where
  | done {m : Merge} : Merges files [] m m
  | missing {r : Bytes} {roots : List Bytes} {m n : Merge} (absent : fileAt? files r = none)
      (rest : Merges files roots (m.report r .zero (.rootNotLoaded r)) n) : Merges files (r :: roots) m n
  | loaded {r : Bytes} {roots : List Bytes} {f : File} {m k n : Merge} (found : fileAt? files r = some f)
      (inner : Expands files [r] f f.document.items (m.enter r) k) (rest : Merges files roots k n) :
      Merges files (r :: roots) m n

theorem Expands.functional {files : List File} {chain : List Bytes} {f : File} {items : List Item} {m n other : Merge}
    (one : Expands files chain f items m n) (two : Expands files chain f items m other) : other = n := by
  induction one generalizing other with
  | done =>
    cases two
    rfl
  | plain plain _ ih =>
    cases two with
    | plain _ rest => exact ih rest
    | _ => exact absurd rfl (plain _)
  | passed passed _ ih =>
    cases two with
    | plain plain => exact absurd rfl (plain _)
    | passed _ rest => exact ih rest
    | _ => rcases passed with none | header <;> simp_all
  | cycle aim header closed _ ih =>
    cases two with
    | plain plain => exact absurd rfl (plain _)
    | passed passed => rcases passed with none | header <;> simp_all
    | cycle aim' _ _ rest =>
      cases aim.symm.trans aim'
      exact ih rest
    | missing aim' _ off =>
      cases aim.symm.trans aim'
      exact absurd closed off
    | nested aim' _ off =>
      cases aim.symm.trans aim'
      exact absurd closed off
  | missing aim header off absent _ ih =>
    cases two with
    | plain plain => exact absurd rfl (plain _)
    | passed passed => rcases passed with none | header <;> simp_all
    | cycle aim' _ closed =>
      cases aim.symm.trans aim'
      exact absurd closed off
    | missing aim' _ _ _ rest =>
      cases aim.symm.trans aim'
      exact ih rest
    | nested aim' _ _ found =>
      cases aim.symm.trans aim'
      cases absent.symm.trans found
  | nested aim header off found _ _ ihInner ihRest =>
    cases two with
    | plain plain => exact absurd rfl (plain _)
    | passed passed => rcases passed with none | header <;> simp_all
    | cycle aim' _ closed =>
      cases aim.symm.trans aim'
      exact absurd closed off
    | missing aim' _ _ absent =>
      cases aim.symm.trans aim'
      cases absent.symm.trans found
    | nested aim' _ _ found' inner rest =>
      cases aim.symm.trans aim'
      cases found.symm.trans found'
      cases ihInner inner
      exact ihRest rest

theorem Merges.functional {files : List File} {roots : List Bytes} {m n other : Merge} (one : Merges files roots m n)
    (two : Merges files roots m other) : other = n := by
  induction one generalizing other with
  | done =>
    cases two
    rfl
  | missing absent _ ih =>
    cases two with
    | missing _ rest => exact ih rest
    | loaded found => cases absent.symm.trans found
  | loaded found inner _ ih =>
    cases two with
    | missing absent => cases absent.symm.trans found
    | loaded found' inner' rest =>
      cases found.symm.trans found'
      cases inner.functional inner'
      exact ih rest

-- Every expansion ends: a chain holds each file once, and each file that is entered lengthens it.

theorem items_expand {files : List File} {fuel : Nat} {chain : List Bytes} {f : File} (items : List Item) (m : Merge)
    (deeper : ∀ (g : File) (k : Merge), fileAt? files g.path = some g → g.path ∉ chain →
      Expands files (chain ++ [g.path]) g g.document.items (k.enter g.path) (expand files fuel chain g k)) :
    Expands files chain f items m (items.foldl (readItem files fuel chain f) m) := by
  induction items generalizing m with
  | nil => exact .done
  | cons item rest ih =>
    rw [List.foldl_cons]
    by_cases plain : ∀ i, item ≠ .include i
    · rw [readItem_plain plain]
      exact .plain plain (ih _)
    · push Not at plain
      obtain ⟨i, rfl⟩ := plain
      by_cases passed : f.target? i = none ∨ i.isHeader = true
      · have same : readItem files fuel chain f m (.include i) = m := by
          rcases passed with none | header
          · simp [readItem, none]
          · cases aim : f.target? i <;> simp [readItem, aim, header]
        rw [same]
        exact .passed passed (ih m)
      · rw [not_or, Bool.not_eq_true] at passed
        obtain ⟨t, aim⟩ := Option.ne_none_iff_exists'.mp passed.1
        by_cases closed : t ∈ chain
        · have step : readItem files fuel chain f m (.include i) =
              m.report f.path i.pathRange (.includeCycle (chain ++ [t])) := by simp [readItem, aim, passed.2, closed]
          rw [step]
          exact .cycle aim passed.2 closed (ih _)
        · cases found : fileAt? files t with
          | none =>
            have step : readItem files fuel chain f m (.include i) = m.report f.path i.pathRange (.notLoaded t) := by
              simp [readItem, aim, passed.2, closed, found]
            rw [step]
            exact .missing aim passed.2 closed found (ih _)
          | some g =>
            have step : readItem files fuel chain f m (.include i) = expand files fuel chain g m := by
              simp [readItem, aim, passed.2, closed, found]
            have path := path_of_fileAt found
            subst path
            rw [step]
            exact .nested aim passed.2 closed found (deeper g m found closed) (ih _)

theorem expand_expands {files : List File} {fuel : Nat} {chain : List Bytes} {f : File} {m : Merge}
    (enough : Enough files chain fuel) (found : fileAt? files f.path = some f) (off : f.path ∉ chain) :
    Expands files (chain ++ [f.path]) f f.document.items (m.enter f.path) (expand files fuel chain f m) := by
  induction fuel generalizing chain f m with
  | zero =>
    obtain ⟨less, equal, -⟩ := enough.enter found off
    cases equal
  | succ fuel ih =>
    obtain ⟨less, equal, fewer⟩ := enough.enter found off
    cases equal
    rw [expand_succ]
    exact items_expand f.document.items _ fun g k loaded apart => ih fewer loaded apart

theorem roots_merge (files : List File) (roots : List Bytes) (m : Merge) :
    Merges files roots m (roots.foldl (addRoot files) m) := by
  induction roots generalizing m with
  | nil => exact .done
  | cons r rest ih =>
    rw [List.foldl_cons]
    cases found : fileAt? files r with
    | none =>
      have reported : m.addRoot files r = m.report r .zero (.rootNotLoaded r) := by simp [addRoot, found]
      rw [reported]
      exact .missing found (ih _)
    | some f =>
      have path := path_of_fileAt found
      subst path
      have read : m.addRoot files f.path = expand files files.length [] f m := by simp [addRoot, found]
      rw [read]
      exact .loaded found (expand_expands (enough_length files) found List.not_mem_nil) (ih _)

theorem merges_iff {files : List File} {roots : List Bytes} {m n : Merge} :
    Merges files roots m n ↔ n = roots.foldl (addRoot files) m :=
  ⟨fun run => (roots_merge files roots m).functional run, fun equal => equal ▸ roots_merge files roots m⟩

-- A depth-first search with a memory: a file that was not visited is visited, and then what it includes before
-- what has been waiting.
inductive Visits (look : Bytes → Option File) : List Bytes → List Bytes → List Bytes → Prop where
  | done {seen : List Bytes} : Visits look seen [] seen
  | again {seen waiting out : List Bytes} {p : Bytes} (old : p ∈ seen) (rest : Visits look seen waiting out) :
      Visits look seen (p :: waiting) out
  | absent {seen waiting out : List Bytes} {p : Bytes} (none : look p = none) (rest : Visits look seen waiting out) :
      Visits look seen (p :: waiting) out
  | enter {seen waiting out : List Bytes} {p : Bytes} {f : File} (new : p ∉ seen) (found : look p = some f)
      (rest : Visits look (seen ++ [p]) (targets f ++ waiting) out) : Visits look seen (p :: waiting) out

theorem Visits.functional {look : Bytes → Option File} {seen waiting out other : List Bytes}
    (one : Visits look seen waiting out) (two : Visits look seen waiting other) : other = out := by
  induction one generalizing other with
  | done =>
    cases two
    rfl
  | again old _ ih =>
    cases two with
    | again _ rest => exact ih rest
    | absent _ rest => exact ih rest
    | enter new => exact absurd old new
  | absent none _ ih =>
    cases two with
    | again _ rest => exact ih rest
    | absent _ rest => exact ih rest
    | enter _ found => cases none.symm.trans found
  | enter new found _ ih =>
    cases two with
    | again old => exact absurd old new
    | absent none => cases none.symm.trans found
    | enter _ found' rest =>
      cases found.symm.trans found'
      exact ih rest

theorem Visits.nodup {look : Bytes → Option File} {seen waiting out : List Bytes} (visits : Visits look seen waiting out)
    (once : seen.Nodup) : out.Nodup := by
  induction visits with
  | done => exact once
  | again _ _ ih => exact ih once
  | absent _ _ ih => exact ih once
  | enter new _ _ ih => exact ih (List.nodup_append.mpr ⟨once, List.nodup_singleton _, by
      rintro a old b here rfl
      exact new (List.mem_singleton.mp here ▸ old)⟩)

theorem files_enter (m : Merge) (path : Bytes) :
    (m.enter path).files = if path ∈ m.files then m.files else m.files ++ [path] := by
  simp only [enter, List.elem_iff]
  split <;> rfl

theorem readPlain_tells (path : Bytes) (m : Merge) (item : Item) : Tells m (readPlain path m item) := by
  cases item with
  | node decl => exact topNode_tells m path decl
  | delete d => exact topDelete_tells m path d
  | _ => exact .refl m

theorem files_readPlain (path : Bytes) (m : Merge) (item : Item) : (readPlain path m item).files = m.files :=
  (readPlain_tells path m item).1

def Settled (look : Bytes → Option File) (chain seen : List Bytes) : Prop :=
  ∀ p ∈ seen, p ∉ chain → ∀ t, Includes look p t → (look t).isSome = true → t ∈ seen

-- Expanding a file once more enters nothing. `base` is the chain that led to it, which only grows below it.
theorem Expands.idle (base : List Bytes) {files : List File} {chain : List Bytes} {f : File} {items : List Item}
    {m n : Merge}
    (run : Expands files chain f items m n) (found : fileAt? files f.path = some f)
    (part : ∀ i ∈ items, i ∈ f.document.items) (grown : ∀ p ∈ base, p ∈ chain) (off : f.path ∉ base)
    (here : f.path ∈ m.files) (settled : Settled (fileAt? files) base m.files) : n.files = m.files := by
  induction run with
  | done => rfl
  | @plain chain f item items m n plain _ ih =>
    have same := files_readPlain f.path m item
    rw [← same] at here settled ⊢
    exact ih found (fun i member => part i (.tail _ member)) grown off here settled
  | passed _ _ ih => exact ih found (fun i member => part i (.tail _ member)) grown off here settled
  | cycle _ _ _ _ ih => exact ih found (fun i member => part i (.tail _ member)) grown off here settled
  | missing _ _ _ _ _ ih => exact ih found (fun i member => part i (.tail _ member)) grown off here settled
  | @nested chain f g i t items m k n aim header apart loaded _ _ ihInner ihRest =>
    have path := path_of_fileAt loaded
    subst path
    have includes : Includes (fileAt? files) f.path g.path := ⟨f, i, found, part _ List.mem_cons_self, header, aim⟩
    have known : g.path ∈ m.files := settled f.path here off g.path includes (by rw [loaded]; rfl)
    have entered : (m.enter g.path).files = m.files := by rw [files_enter, if_pos known]
    have inner : k.files = m.files := by
      rw [← entered] at known settled ⊢
      exact ihInner loaded (fun _ => id) (fun p member => List.mem_append_left _ (grown p member))
        (fun inside => apart (grown _ inside)) known settled
    rw [← inner] at here settled ⊢
    exact ihRest found (fun i member => part i (.tail _ member)) grown off here settled

structure Searched (look : Bytes → Option File) (chain more seen out : List Bytes) : Prop where
  keeps : ∀ p ∈ seen, p ∈ out
  settled : Settled look chain out
  covers : ∀ t ∈ more, (look t).isSome = true → t ∈ out
  visits : ∀ waiting last, Visits look out waiting last → Visits look seen (more ++ waiting) last

namespace Searched

variable {look : Bytes → Option File} {chain more seen mid out : List Bytes} {t : Bytes}

theorem again (old : t ∈ seen) (searched : Searched look chain more seen out) :
    Searched look chain (t :: more) seen out where
  keeps := searched.keeps
  settled := searched.settled
  covers p member loaded := by
    rcases List.mem_cons.mp member with rfl | later
    · exact searched.keeps p old
    · exact searched.covers p later loaded
  visits waiting last rest := .again old (searched.visits waiting last rest)

theorem absent (none : look t = none) (searched : Searched look chain more seen out) :
    Searched look chain (t :: more) seen out where
  keeps := searched.keeps
  settled := searched.settled
  covers p member loaded := by
    rcases List.mem_cons.mp member with rfl | later
    · rw [none] at loaded
      cases loaded
    · exact searched.covers p later loaded
  visits waiting last rest := .absent none (searched.visits waiting last rest)

theorem enter {g : File} (found : look t = some g) (new : t ∉ seen)
    (inner : Searched look (chain ++ [t]) (targets g) (seen ++ [t]) mid) (rest : Searched look chain more mid out) :
    Searched look chain (t :: more) seen out where
  keeps p old := rest.keeps p (inner.keeps p (List.mem_append_left _ old))
  settled := rest.settled
  covers p member loaded := by
    rcases List.mem_cons.mp member with rfl | later
    · exact rest.keeps p (inner.keeps p (List.mem_append_right _ (List.mem_singleton_self p)))
    · exact rest.covers p later loaded
  visits waiting last after := .enter new found (inner.visits _ last (rest.visits waiting last after))

-- Once all its includes have been entered, a file need not stay on the chain.
theorem leave {g : File} (found : look t = some g) (inner : Searched look (chain ++ [t]) (targets g) seen out) :
    Settled look chain out := by
  intro p present off u includes loaded
  by_cases same : p = t
  · subst same
    obtain ⟨f, there, member⟩ := includes_iff_targets.mp includes
    cases found.symm.trans there
    exact inner.covers u member loaded
  · refine inner.settled p present (fun inside => ?_) u includes loaded
    rcases List.mem_append.mp inside with old | here
    · exact off old
    · exact same (List.mem_singleton.mp here)

end Searched

-- Entering a file keeps what was settled, since the file is then on the chain.
theorem Settled.enter {look : Bytes → Option File} {chain seen : List Bytes} (settled : Settled look chain seen)
    (t : Bytes) :
    Settled look (chain ++ [t]) (seen ++ [t]) := by
  intro p present off u includes loaded
  rw [List.mem_append, not_or] at off
  rcases List.mem_append.mp present with old | here
  · exact List.mem_append_left _ (settled p old off.1 u includes loaded)
  · exact absurd here off.2

theorem Expands.searched {files : List File} {chain : List Bytes} {f : File} {items : List Item} {m n : Merge}
    (run : Expands files chain f items m n) (line : ∀ p ∈ chain, p ∈ m.files)
    (settled : Settled (fileAt? files) chain m.files) :
    Searched (fileAt? files) chain (targetsOf f items) m.files n.files := by
  induction run with
  | done => exact ⟨fun _ => id, settled, List.forall_mem_nil _, fun _ _ => id⟩
  | @plain chain f item items m n plain _ ih =>
    rw [targetsOf_plain plain, ← files_readPlain f.path m item]
    rw [← files_readPlain f.path m item] at line settled
    exact ih line settled
  | passed passed _ ih =>
    rw [targetsOf_passed passed]
    exact ih line settled
  | cycle aim header closed _ ih =>
    rw [targetsOf_leading aim header]
    exact (ih line settled).again (line _ closed)
  | missing aim header _ absent _ ih =>
    rw [targetsOf_leading aim header]
    exact (ih line settled).absent absent
  | @nested chain f g i t items m k n aim header off found inner _ ihInner ihRest =>
    rw [targetsOf_leading aim header]
    by_cases known : t ∈ m.files
    · -- The file has been expanded before: this time nothing is entered.
      have entered : (m.enter t).files = m.files := by rw [files_enter, if_pos known]
      have path := path_of_fileAt found
      have same : k.files = m.files := by
        rw [← entered]
        refine inner.idle chain (path.symm ▸ found) (fun _ => id) (fun p member => List.mem_append_left _ member) ?_ ?_ ?_
        · rw [path]
          exact off
        · rw [path, entered]
          exact known
        · rw [entered]
          exact settled
      rw [same] at ihRest
      exact (ihRest line settled).again known
    · have entered : (m.enter t).files = m.files ++ [t] := by rw [files_enter, if_neg known]
      rw [entered] at ihInner
      have within := ihInner (fun p member => (List.mem_append.mp member).elim (fun old => List.mem_append_left _ (line p old))
        (List.mem_append_right _)) (settled.enter t)
      refine .enter found known within (ihRest (fun p member => ?_) (within.leave found))
      exact within.keeps p (List.mem_append_left _ (line p member))

theorem Merges.searched {files : List File} {roots : List Bytes} {m n : Merge} (run : Merges files roots m n)
    (settled : Settled (fileAt? files) [] m.files) : Searched (fileAt? files) [] roots m.files n.files := by
  induction run with
  | done => exact ⟨fun _ => id, settled, List.forall_mem_nil _, fun _ _ => id⟩
  | missing absent _ ih => exact (ih settled).absent absent
  | @loaded r roots f m k n found inner _ ih =>
    have path := path_of_fileAt found
    subst path
    by_cases known : f.path ∈ m.files
    · have entered : (m.enter f.path).files = m.files := by rw [files_enter, if_pos known]
      have same : k.files = m.files := by
        rw [← entered]
        exact inner.idle [] found (fun _ => id) (List.forall_mem_nil _) List.not_mem_nil (entered ▸ known)
          (entered ▸ settled)
      rw [same] at ih
      exact (ih settled).again known
    · have entered : (m.enter f.path).files = m.files ++ [f.path] := by rw [files_enter, if_neg known]
      have within := inner.searched (entered ▸ fun p member => List.mem_append_right _ member)
        (entered ▸ settled.enter f.path)
      rw [entered] at within
      have settled : Settled (fileAt? files) [] k.files := Searched.leave found within
      exact .enter found known within (ih settled)

end DeviceTree.Merge

namespace DeviceTree.Tree
open Merge

-- A merge ends with one result, and it has read the files that the roots lead to, each once and in the order in which a
-- depth-first search comes to them.
theorem merge_depth_first (name : Bytes) (roots : List Bytes) (files : List File) (bindings : Option Catalog) :
    (∃ m, (∀ n, Merges files roots .empty n ↔ n = m) ∧ (merge name roots files bindings).store = m.store ∧
      (merge name roots files bindings).fragments = m.fragments ∧ (merge name roots files bindings).labels = m.labels ∧
      (merge name roots files bindings).files = m.files ∧ m.diagnostics <:+ (merge name roots files bindings).diagnostics) ∧
    (merge name roots files bindings).files.Nodup ∧
    (∀ p, p ∈ (merge name roots files bindings).files ↔
      Reaches (fileAt? files) roots p ∧ (fileAt? files p).isSome = true) ∧
    ∀ out, Visits (fileAt? files) [] roots out ↔ out = (merge name roots files bindings).files := by
  have run := roots_merge files roots .empty
  have searched := run.searched (fun p member => by cases member)
  have visits : Visits (fileAt? files) [] roots (merge name roots files bindings).files := by
    have all := searched.visits [] _ .done
    rwa [List.append_nil] at all
  have opened := roots_opened files roots
  refine ⟨⟨_, fun n => merges_iff, rfl, rfl, rfl, rfl, List.suffix_append _ _⟩, visits.nodup List.nodup_nil, ?_, ?_⟩
  · exact opened.entered_iff (fun _ _ => rfl) fun t missed => (opened.missed t missed).1
  · exact fun out => ⟨visits.functional, fun equal => equal ▸ visits⟩

end DeviceTree.Tree
