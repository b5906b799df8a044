import DeviceTree.Proofs.Inlining
import DeviceTree.Session.Task

namespace DeviceTree.Tree
open Merge

def ownFiles (t : Tree) (files : List File) : List File := files.filter fun f => t.files.elem f.path

theorem fileAt_ownFiles (t : Tree) (files : List File) (p : Bytes) :
    fileAt? (t.ownFiles files) p = if p ∈ t.files then fileAt? files p else none := by
  unfold fileAt? ownFiles
  rw [List.find?_filter]
  split
  · rename_i own
    refine congrArg (List.find? · files) (funext fun f => ?_)
    by_cases same : f.path = p <;> simp [same, own]
  · rename_i foreign
    refine List.find?_eq_none.mpr fun f _ both => ?_
    simp only [List.elem_eq_mem, decide_eq_true_eq] at both
    exact foreign (both.2 ▸ both.1)

-- The files of its own are all that a merge needs.
theorem merge_ownFiles (name : Bytes) (roots : List Bytes) (files : List File) (bindings : Option Catalog) :
    merge name roots ((merge name roots files bindings).ownFiles files) bindings = merge name roots files bindings := by
  refine merge_reached fun p reached => ?_
  rw [fileAt_ownFiles]
  split
  · rfl
  · rename_i absent
    rw [mem_merge_files] at absent
    cases found : fileAt? files p with
    | none => rfl
    | some f => exact absurd ⟨reached, by rw [found]; rfl⟩ absent

end DeviceTree.Tree

namespace DeviceTree.Session
open Merge

theorem onMerge_publishes {s : Session} {id : ContextId} {c : Context} {tree : Tree} (found : s.context? id = some c)
    (merged : (s.onMerge id).1 = some (.publish id tree)) :
    tree = Tree.merge c.name c.roots s.parsedFiles s.bindings := by
  unfold onMerge at merged
  rw [found] at merged
  dsimp only at merged
  split at merged
  · cases merged
  · injection merged with same
    injection same with _ same
    exact same.symm

-- Two tables with the same files wherever the roots lead give the same tree: the same nodes, files, labels, blocks and
-- diagnostics. So a context that is merged from the table of the session has the tree that any such table gives, and
-- in particular that of its own files alone.
theorem merge_isolated (roots : List Bytes) (files other : List File)
    (agree : ∀ p, Reaches (fileAt? files) roots p → fileAt? other p = fileAt? files p) :
    (∀ name bindings, Tree.merge name roots other bindings = Tree.merge name roots files bindings) ∧
    ∀ (s : Session) (id : ContextId) (c : Context) (tree : Tree), s.parsedFiles = other → s.context? id = some c →
      c.roots = roots → (s.onMerge id).1 = some (.publish id tree) →
      tree = Tree.merge c.name roots files s.bindings ∧
      tree = Tree.merge c.name roots (tree.ownFiles s.parsedFiles) s.bindings := by
  refine ⟨fun name bindings => Tree.merge_reached agree, ?_⟩
  rintro s id c tree rfl found rfl merged
  have same := onMerge_publishes found merged
  refine ⟨same.trans (Tree.merge_reached agree), ?_⟩
  rw [same, Tree.merge_ownFiles]

def neighbour : File :=
  ⟨utf8 "/other.dts", [], ⟨[.include Tree.chipInclude, Tree.chipNode], []⟩,
    [⟨Tree.chipInclude, some Tree.chipFile.path⟩], []⟩

theorem board_beside_neighbour :
    (∀ p, Reaches (fileAt? [Tree.boardFile, Tree.chipFile]) [Tree.boardFile.path] p →
      fileAt? [neighbour, Tree.chipFile, Tree.boardFile] p = fileAt? [Tree.boardFile, Tree.chipFile] p) ∧
    Tree.merge [] [Tree.boardFile.path] [neighbour, Tree.chipFile, Tree.boardFile] none =
      Tree.merge [] [Tree.boardFile.path] [Tree.boardFile, Tree.chipFile] none := by
  have agree : ∀ p, Reaches (fileAt? [Tree.boardFile, Tree.chipFile]) [Tree.boardFile.path] p →
      fileAt? [neighbour, Tree.chipFile, Tree.boardFile] p = fileAt? [Tree.boardFile, Tree.chipFile] p := by
    rintro p ⟨r, root, led⟩
    rw [List.mem_singleton.mp root] at led
    cases led with
    | refl => rfl
    | tail _ step =>
      obtain ⟨-, rfl⟩ := Tree.board_includes step
      rfl
  exact ⟨agree, (merge_isolated _ _ _ agree).1 [] none⟩

end DeviceTree.Session
